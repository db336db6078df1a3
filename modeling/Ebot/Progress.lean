import Ebot.Faults
import Ebot.Library.Fairness
import Ebot.Reception
import Ebot.WorkerPool

/-!
# What the server gets done

A pass of a thread through its loop, from one `epoll_wait` to the next, is finite,
and how long it can be is fixed by the number of reports.  In an endless run in
which no thread and no worker is held up for ever, every accepted connection is
announced, every packet pushed is handled, and what was received on a descriptor
is passed to the application.
-/

namespace Ebot

open Function EdgeSource EventState Transition Endless

/-! ## Passes -/

/-- How many steps a thread takes from this place to the end of its callback, and
back to `epoll_wait` when nothing is queued. -/
@[simp] def Pc.steps : Pc → Nat
  | .idle => 0
  | .boot | .dispatch => 1
  | .count | .notify _ => 2
  | .announce _ | .pushing _ _ _ => 3
  | .handOff _ => 4
  | .accept => 5
  | .undoing .write _ _ _ => 2
  | .opening .write _ _ => 3
  | .undoing .read _ _ _ => 4
  | .opening .read _ _ => 5
  | .pipeRead _ => 6
  | .closing .write _ _ => 4
  | .closing .read _ _ => 5
  | .recv _ _ => 6

/-- A bound on the steps a thread takes before its next `epoll_wait`. -/
def stepsLeft (t : Tid) (s : Server) : Nat :=
  (s.pc t).steps + 6 * (s.events.readies t).length

/-- The move is the return of `epoll_wait` in the thread. -/
def Action.waitOf (t : Tid) : Action → Bool
  | .wait t' _ => t' == t
  | _ => false

/-- The move is a step of the thread. -/
def Action.runOf (t : Tid) : Action → Bool
  | .run t' _ => t' == t
  | _ => false

section Steps

variable {cfg : Cfg} {s s' : Server} {a : Action} {t : Tid} {env : Env}

theorem Pc.steps_start
    {fd : Fd} {cb : Callback} {arg : Arg} {pc : Pc}
    (h : Pc.start fd cb arg = some pc) :
    pc.steps ≤ 6 := by
  cases cb <;> cases arg <;> cases h <;> simp

theorem Pc.steps_opened
    (d : Dir) (i : Nat) (fd : Fd) :
    (Pc.opened i fd d).steps < (Pc.opening d i fd).steps ∧
      ∀ p, (Pc.opened i fd d).steps < (Pc.undoing d i fd p).steps ∧
        (Pc.undoing d i fd p).steps < (Pc.opening d i fd).steps := by
  cases d <;> simp [Pc.opened]

theorem Pc.steps_closed
    (d : Dir) (i : Nat) (fd : Fd) :
    (Pc.closed i fd d).steps < (Pc.closing d i fd).steps := by
  cases d <;> simp [Pc.closed]

theorem Pc.steps_received
    (i : Nat) (fd : Fd) (r : RecvResult) :
    (Pc.received i fd r).steps < (Pc.recv i fd).steps := by
  rcases Pc.received_cases i fd r with ⟨-, h⟩ | ⟨-, h⟩ | ⟨-, -, h⟩ <;> simp [h]

/-- A step of one thread leaves the ready queues of the others alone. -/
theorem Move.readies_other
    (h : Move cfg s a s')
    (ha : a.thread ≠ some t) :
    s'.events.readies t = s.events.readies t := by
  have hne : ∀ {t'}, some t' ≠ some t → t ≠ t' := fun h he => h (he ▸ rfl)
  cases h with
  | booted _ _ hop => exact hop.readies t
  | waited _ _ _ hcol => exact hcol.other t (hne ha)
  | ignored _ _ htk => exact htk.other t (hne ha)
  | started _ _ htk => exact htk.other t (hne ha)
  | writable _ _ htk => exact htk.other t (hne ha)
  | opened _ _ hop => exact hop.readies t
  | openFailed _ _ hop => exact hop.readies t
  | undone _ _ hput => simp [EventState.readies, hput.base]
  | closed _ _ _ hcl => exact hcl.readies t
  | _ => rfl

theorem Move.stepsLeft_other
    (h : Move cfg s a s')
    (ha : a.thread ≠ some t) :
    stepsLeft t s' = stepsLeft t s := by
  unfold stepsLeft
  rw [h.pc_other ha, h.readies_other ha]

/-- A thread that goes on, its queue unchanged. -/
theorem stepsLeft_goto
    {s₁ : Server} {pc₀ pc : Pc}
    (hpc : s.pc t = pc₀)
    (hlt : pc.steps < pc₀.steps)
    (hready : s₁.events.readies t = s.events.readies t) :
    stepsLeft t (s₁.goto t pc) < stepsLeft t s := by
  unfold stepsLeft
  rw [Server.goto_pc_self, Server.goto_events, hready, hpc]
  omega

/-- A thread that takes an event off its queue. -/
theorem stepsLeft_taken
    {s₁ : Server} {p : Nat} {events : EventState}
    (hpc : s.pc t = .dispatch)
    (htk : Taken s.events t p events)
    (hevents : s₁.events = events)
    (hle : (s₁.pc t).steps ≤ 6) :
    stepsLeft t s₁ < stepsLeft t s := by
  unfold stepsLeft
  rw [hpc, hevents, htk.queue, List.length_cons, Pc.steps]
  omega

/-- Each step of a thread brings it closer to its `epoll_wait`. -/
theorem Move.stepsLeft_run
    (h : Move cfg s (.run t env) s') :
    stepsLeft t s' < stepsLeft t s := by
  cases h with
  | booted _ hpc hop => exact stepsLeft_goto hpc (by simp) (hop.readies t)
  | drained _ hpc => exact stepsLeft_goto hpc (by simp) rfl
  | ignored _ hpc htk =>
      refine stepsLeft_taken hpc htk rfl ?_
      dsimp only
      rw [hpc]
      simp
  | started _ hpc htk _ hstart =>
      refine stepsLeft_taken hpc htk rfl ?_
      rw [Server.goto_pc_self]
      exact Pc.steps_start hstart
  | writable _ hpc htk =>
      refine stepsLeft_taken hpc htk rfl ?_
      rw [Server.note_pc]
      dsimp only
      rw [hpc]
      simp
  | acceptFailed _ hpc => exact stepsLeft_goto hpc (by simp) rfl
  | rejected _ hpc => exact stepsLeft_goto hpc (by simp) rfl
  | accepted _ hpc => exact stepsLeft_goto hpc (by simp) rfl
  | handedOff _ hpc => exact stepsLeft_goto hpc (by simp) rfl
  | handOffFailed _ hpc => exact stepsLeft_goto hpc (by simp) rfl
  | announced _ hpc => exact stepsLeft_goto hpc (by simp) rfl
  | counted _ hpc => exact stepsLeft_goto hpc (by simp) rfl
  | pipeEmpty _ hpc => exact stepsLeft_goto hpc (by simp) rfl
  | pipeTaken _ hpc => exact stepsLeft_goto hpc (by simp) rfl
  | @exhausted _ _ d _ _ _ hpc =>
      refine stepsLeft_goto hpc ?_ rfl
      cases d <;> simp
  | @opened _ _ d i fd _ _ _ hpc hop =>
      exact stepsLeft_goto hpc (Pc.steps_opened d i fd).1 (hop.readies t)
  | @openFailed _ _ d i fd p _ _ hpc hop =>
      exact stepsLeft_goto hpc ((Pc.steps_opened d i fd).2 p).2 (hop.readies t)
  | @undone _ _ d i fd p _ _ hpc hput =>
      refine stepsLeft_goto hpc ((Pc.steps_opened d i fd).2 p).1 ?_
      simp [EventState.readies, hput.base]
  | @received _ _ i fd _ hpc => exact stepsLeft_goto hpc (Pc.steps_received i fd _) rfl
  | @closedNone _ _ d i fd _ hpc => exact stepsLeft_goto hpc (Pc.steps_closed d i fd) rfl
  | @closed _ _ d i fd _ _ _ _ hpc _ hcl =>
      exact stepsLeft_goto hpc (Pc.steps_closed d i fd) (hcl.readies t)
  | refused _ hpc => exact stepsLeft_goto hpc (by simp) rfl
  | pushed _ hpc => exact stepsLeft_goto hpc (by simp) rfl
  | notified _ hpc => exact stepsLeft_goto hpc (by simp) rfl

/-- Nothing is queued in a thread before its `epoll_wait`. -/
def Rested (s : Server) : Prop :=
  ∀ t, (s.pc t).waits = true → s.events.readies t = []

/-- A thread that goes to wait has nothing queued. -/
theorem Move.rested_thread
    (h : Move cfg s a s')
    (ha : a.thread = some t)
    (hrested : Rested s)
    (hwaits : (s'.pc t).waits = true) :
    s'.events.readies t = [] := by
  cases h with
  | arrived => cases ha
  | booted _ hpc hop =>
      cases ha
      rw [Server.goto_events, hop.readies]
      exact hrested t (hpc ▸ rfl)
  | drained _ _ hempty =>
      cases ha
      exact hempty
  | ignored _ hpc =>
      cases ha
      dsimp only at hwaits
      rw [hpc] at hwaits
      cases hwaits
  | writable _ hpc =>
      cases ha
      rw [Server.note_pc] at hwaits
      dsimp only at hwaits
      rw [hpc] at hwaits
      cases hwaits
  | started _ _ _ _ hstart =>
      cases ha
      rw [Server.goto_pc_self, Pc.waits_start hstart] at hwaits
      cases hwaits
  | opened =>
      cases ha
      rw [Server.goto_pc_self, Pc.waits_opened] at hwaits
      cases hwaits
  | undone =>
      cases ha
      rw [Server.goto_pc_self, Pc.waits_opened] at hwaits
      cases hwaits
  | received =>
      cases ha
      rw [Server.goto_pc_self, Pc.waits_received] at hwaits
      cases hwaits
  | closedNone =>
      cases ha
      rw [Server.goto_pc_self, Pc.waits_closed] at hwaits
      cases hwaits
  | closed =>
      cases ha
      rw [Server.goto_pc_self, Pc.waits_closed] at hwaits
      cases hwaits
  | woke => cases ha
  | handled => cases ha
  | emptied => cases ha
  | _ =>
      cases ha
      rw [Server.goto_pc_self] at hwaits
      cases hwaits

theorem Move.rested
    (h : Move cfg s a s')
    (hrested : Rested s) :
    Rested s' := by
  intro t hwaits
  by_cases ha : a.thread = some t
  · exact h.rested_thread ha hrested hwaits
  · rw [h.readies_other ha]
    rw [h.pc_other ha] at hwaits
    exact hrested t hwaits

theorem rested_ebSrvNew (cfg : Cfg) : Rested (ebSrvNew cfg) :=
  fun t _ => by cases t <;> rfl

theorem rested_of_reach
    {good : Server → Action → Prop}
    (hreach : Reach (step cfg) good (ebSrvNew cfg) s) :
    Rested s :=
  hreach.invariant (rested_ebSrvNew cfg) fun _ _ _ h _ hstep => (step_move hstep).rested h

/-- Each report queues at most a read and a write event. -/
theorem ebotLoopCollect_length
    {κ α : Type} {eb eb' : EbotBase} {ev ev' : Nat → Event κ α} {reports : List Report}
    (h : ebotLoopCollect eb ev reports = .ok (eb', ev')) :
    eb'.event_readies.length ≤ eb.event_readies.length + 2 * reports.length := by
  have hone : ∀ {b d fd} {eb₁ eb₂ : EbotBase} {ev₁ ev₂ : Nat → Event κ α},
      queueReported b d fd eb₁ ev₁ = .ok (eb₂, ev₂) →
      eb₂.event_readies.length ≤ eb₁.event_readies.length + 1 := by
    intro b d fd eb₁ eb₂ ev₁ ev₂ hq
    unfold queueReported at hq
    split at hq
    · obtain ⟨o, -, hq⟩ := bind_eq_ok.mp hq
      obtain rfl := congrArg Prod.fst (Except.ok.inj hq)
      unfold queuedEventReadies
      cases o with
      | none => exact Nat.le_succ _
      | some p =>
          dsimp only
          split
          · exact Nat.le_succ _
          · simp
    · cases hq
      exact Nat.le_succ _
  induction reports generalizing eb ev with
  | nil =>
      cases h
      exact Nat.le.refl
  | cons rep reports ih =>
      unfold ebotLoopCollect at h
      obtain ⟨⟨eb₁, ev₁⟩, hread, h⟩ := bind_eq_ok.mp h
      obtain ⟨⟨eb₂, ev₂⟩, hwrite, h⟩ := bind_eq_ok.mp h
      have h₁ := hone hread
      have h₂ := hone hwrite
      have h₃ := ih h
      rw [List.length_cons]
      omega

/-- What lies before a thread when its `epoll_wait` returns. -/
theorem stepsLeft_wait
    {reports : List Report}
    (hrested : Rested s)
    (hstep : step cfg s (.wait t reports) = .ok s') :
    stepsLeft t s' ≤ 12 * reports.length + 1 := by
  obtain ⟨_, -, hstep⟩ := bind_eq_ok.mp hstep
  unfold ebotLoop at hstep
  obtain ⟨_, hpc, hstep⟩ := bind_eq_ok.mp hstep
  obtain ⟨_, -, hstep⟩ := bind_eq_ok.mp hstep
  obtain ⟨_, -, hstep⟩ := bind_eq_ok.mp hstep
  obtain ⟨_, -, hstep⟩ := bind_eq_ok.mp hstep
  obtain ⟨events, hcollect, hstep⟩ := bind_eq_ok.mp hstep
  have hempty : (s.events.base t).event_readies = [] :=
    hrested t (by rw [require_eq_ok.mp hpc]; rfl)
  cases hstep
  unfold collect at hcollect
  obtain ⟨⟨base, ev⟩, hloop, hcollect⟩ := bind_eq_ok.mp hcollect
  cases hcollect
  have hlen := ebotLoopCollect_length hloop
  rw [hempty, List.length_nil] at hlen
  unfold stepsLeft
  rw [Server.goto_pc_self, Server.goto_events]
  simp only [EventState.readies, update_self]
  rw [Pc.steps]
  omega

end Steps

/-- **A pass is finite.**  In a run whose close paths remove only events that are not
queued, with the kernel's consent, a thread takes at most twelve steps for each report
of `epoll_wait`, and one more, before it calls `epoll_wait` again, whatever the other
threads do in between. -/
theorem pass_steps_bounded
    {cfg : Cfg} {s s' : Server} {t : Tid} {reports : List Report} {as : List Action}
    (hreach : Reach (step cfg) ClosesUnqueued (ebSrvNew cfg) s)
    (hrun : run (guarded (step cfg) ClosesUnqueued .disabled) s (.wait t reports :: as) =
      .ok s')
    (hpass : ∀ a ∈ as, a.waitOf t = false) :
    as.countP (Action.runOf t) ≤ 12 * reports.length + 1 := by
  obtain ⟨s₁, hwait, hrest⟩ := run_cons_success (run_of_guarded_run hrun)
  have hfirst := stepsLeft_wait (rested_of_reach hreach) hwait
  have hall : as.countP (Action.runOf t) + stepsLeft t s' ≤ stepsLeft t s₁ := by
    refine countP_le_of_rank _ _ ?_ ?_ hrest
    · intro s a s' _ hown hstep
      cases a with
      | run t' env =>
          obtain rfl : t' = t := beq_iff_eq.mp hown
          exact (step_move hstep).stepsLeft_run
      | _ => cases hown
    · intro s a s' hmem hown hstep
      have hthread : a.thread ≠ some t := by
        have hwaitOf := hpass a hmem
        cases a with
        | run t' env =>
            rintro ⟨rfl⟩
            exact (beq_eq_false_iff_ne.mp hown) rfl
        | wait t' reports =>
            rintro ⟨rfl⟩
            exact (beq_eq_false_iff_ne.mp hwaitOf) rfl
        | _ => exact nofun
      exact Nat.le_of_eq ((step_move hstep).stepsLeft_other hthread)
  omega

/-- The reactor registers a connection in one pass: five steps for one report. -/
theorem pass_steps_bounded_register :
    ((Small.register.tail).countP (Action.runOf (.reactor 0)) = 5) ∧
      (Small.register.tail).countP (Action.runOf (.reactor 0)) ≤ 12 * 1 + 1 := by
  have hrun : endsIn (guarded (step Small.cfg) ClosesUnqueued .disabled) Small.start
      ((Small.boot ++ Small.handOff 7) ++ Small.register) (fun _ => true) = true := by
    decide +kernel
  obtain ⟨s', hall, -⟩ := run_of_endsIn hrun
  obtain ⟨t, hprefix, hpass⟩ := run_append_success hall
  exact ⟨by decide, pass_steps_bounded (reach_of_guarded_run hprefix) hpass (by decide)⟩

/-! ## Threads get back to their loop -/

/-- The move is a run of the handler of the unit. -/
def Action.workOf (u : Nat) : Action → Bool
  | .work u' _ => u' == u
  | _ => false

theorem Action.eq_run_of_runOf
    {a : Action} {t : Tid}
    (h : a.runOf t = true) :
    ∃ env, a = .run t env := by
  cases a with
  | run t' env => exact ⟨env, beq_iff_eq.mp h ▸ rfl⟩
  | _ => cases h

theorem Action.eq_work_of_workOf
    {a : Action} {u : Nat}
    (h : a.workOf u = true) :
    ∃ stack, a = .work u stack := by
  cases a with
  | work u' stack => exact ⟨stack, beq_iff_eq.mp h ▸ rfl⟩
  | _ => cases h

/-- A thread never starts again. -/
theorem Move.pc_ne_boot
    {cfg : Cfg} {s s' : Server} {a : Action} {t : Tid}
    (h : Move cfg s a s')
    (hpc : s.pc t ≠ .boot) :
    s'.pc t ≠ .boot := by
  by_cases ha : a.thread = some t
  · have hnew : ∀ {s₁ : Server} {pc}, pc ≠ .boot → (s₁.goto t pc).pc t ≠ .boot :=
      fun hne => by rwa [Server.goto_pc_self]
    cases h with
    | arrived => exact hpc
    | ignored => exact hpc
    | writable => exact hpc
    | woke => exact hpc
    | handled => exact hpc
    | emptied => exact hpc
    | @started _ _ p events cb pc _ _ _ _ hstart =>
        cases ha
        refine hnew fun he => ?_
        have hwaits := Pc.waits_start hstart
        rw [he] at hwaits
        cases hwaits
    | @opened _ _ d =>
        cases ha
        exact hnew (by cases d <;> simp [Pc.opened])
    | @undone _ _ d =>
        cases ha
        exact hnew (by cases d <;> simp [Pc.opened])
    | @received _ env i fd =>
        cases ha
        refine hnew fun he => ?_
        have hwaits : (Pc.received i fd env.recv).waits = false := Pc.waits_received
        rw [he] at hwaits
        cases hwaits
    | @closedNone _ _ d =>
        cases ha
        exact hnew (by cases d <;> simp [Pc.closed])
    | @closed _ _ d =>
        cases ha
        exact hnew (by cases d <;> simp [Pc.closed])
    | _ =>
        cases ha
        exact hnew (by simp)
  · rwa [h.pc_other ha]

section Threads

variable {cfg : Cfg} {s s' : Server} {a : Action} {t : Tid}
variable {r : Endless (step cfg) Tame (ebSrvNew cfg)}

/-- A thread on its way can always take its next step. -/
theorem Sound.enabled
    (h : Sound cfg s)
    (hcfg : cfg.Fits)
    (hrun : cfg.Runs t)
    (hboot : s.pc t ≠ .boot)
    (hidle : s.pc t ≠ .idle) :
    Enabled (step cfg) (fun a => a.runOf t = true) s := by
  have hpossible : Possible cfg s (.run t ⟨true, none, true, .wouldBlock⟩) :=
    ⟨hrun, hidle, fun _ => nofun⟩
  rcases h.returns hcfg hpossible with ⟨s', hstep⟩ | ⟨t', env, heq, hpc, -⟩
  · refine ⟨_, ?_, s', hstep⟩
    exact beq_self_eq_true t
  · cases heq
    exact absurd hpc hboot

/-- A thread that is not held up for ever comes back to its `epoll_wait`. -/
theorem leadsTo_idle
    (hcfg : cfg.Fits)
    (hrun : cfg.Runs t)
    (hfair : r.Fair fun a => a.runOf t = true) :
    r.LeadsTo (fun s => s.pc t ≠ .boot) (fun s => s.pc t = .idle) := by
  refine leadsTo_of_rank (stepsLeft t) fun k => ?_
  -- a thread that is there already has nowhere to go
  have hgo : r.LeadsTo (fun s => s.pc t ≠ .idle ∧ s.pc t ≠ .boot ∧ stepsLeft t s = k)
      (fun s => s.pc t = .idle ∨ s.pc t ≠ .boot ∧ stepsLeft t s < k) := by
    refine leadsTo_of_fair hfair (fun n => sound_of_reach hcfg (r.reach n)) ?_ ?_ ?_
    · rintro s a s' - ⟨hidle, hboot, hk⟩ - hstep
      have hmove := step_move hstep
      by_cases ha : a.thread = some t
      · obtain ⟨env, rfl⟩ := hmove.run_of_thread ha hidle
        exact .inr (.inr ⟨hmove.pc_ne_boot hboot, hk ▸ hmove.stepsLeft_run⟩)
      · refine .inl ?_
        rw [hmove.pc_other ha, hmove.stepsLeft_other ha]
        exact ⟨hidle, hboot, hk⟩
    · rintro s a s' - ⟨-, hboot, hk⟩ hown - hstep
      obtain ⟨env, rfl⟩ := Action.eq_run_of_runOf hown
      have hmove := step_move hstep
      exact .inr ⟨hmove.pc_ne_boot hboot, hk ▸ hmove.stepsLeft_run⟩
    · rintro s hsound ⟨hidle, hboot, -⟩
      exact hsound.enabled hcfg hrun hboot hidle
  intro n hn
  by_cases hidle : (r.state n).pc t = .idle
  · exact ⟨n, Nat.le.refl, .inl hidle⟩
  · exact hgo n ⟨hidle, hn⟩

/-- Before the master starts, nothing is accepted. -/
theorem started_of_accepted
    {good : Server → Action → Prop} {fd : Fd}
    (hreach : Reach (step cfg) good (ebSrvNew cfg) s)
    (hacc : Accepted s.log fd) :
    s.pc .master ≠ .boot := by
  refine hreach.invariant_of (J := MasterAlone cfg)
    (I := fun s => Accepted s.log fd → s.pc .master ≠ .boot)
    (fun s hr => masterAlone_of_reach hr) nofun ?_ hacc
  intro s a s' halone _ h _ hstep hacc
  have hmove := step_move hstep
  rcases hmove.accepted_or halone hacc with hold | hpc
  · exact hmove.pc_ne_boot (h hold)
  · rw [hpc]
    exact nofun

/-- The history only grows. -/
theorem log_prefix
    {good : Server → Action → Prop} {r : Endless (step cfg) good (ebSrvNew cfg)} {n m : Nat}
    (h : n ≤ m) :
    (r.state n).log <+: (r.state m).log := by
  refine (r.reach_from h).invariant (I := fun s => (r.state n).log <+: s.log)
    (List.prefix_refl _) fun s a s' hs _ hstep => ?_
  obtain ⟨notes, hlog⟩ := (step_move hstep).log_append
  rw [hlog]
  exact hs.trans (List.prefix_append _ _)

/-- While the master waits, it has announced everything it has accepted. -/
theorem MasterSide.connects_of_idle
    (h : MasterSide cfg s)
    (hcallback : cfg.callbacks .EB_CONNECT = true)
    (hidle : s.pc .master = .idle) :
    connectsOf s.log = (acceptedOf s.log).map fun fd : Fd => ((fd : Nat) : Int) := by
  obtain ⟨done, haccepted, hconnects⟩ := h.announced
  have hone : announcement cfg = fun fd : Fd => [((fd : Nat) : Int)] := by
    funext fd
    simp [announcement, hcallback]
  rw [hconnects, haccepted, hidle, hone, List.map_eq_flatMap]
  exact congrArg _ (List.append_nil done).symm

end Threads

/-! ## A server at rest

The endless runs that the results below are applied to: a finite run, after which
clients go on arriving and nobody is at work. -/

/-- All threads wait for reports, and all workers sleep. -/
structure Resting (cfg : Cfg) (s : Server) : Prop where
  threads : ∀ t, cfg.Runs t → s.pc t = .idle
  workers : ∀ u, u < cfg.num → (s.units u).waiting = true ∧ (s.units u).efd = 0

section Rest

variable {cfg : Cfg} {s : Server} {t : Tid} {u : Nat}

theorem Resting.not_runs
    (h : Resting cfg s) :
    ¬ Enabled (step cfg) (fun a => a.runOf t = true) s := by
  rintro ⟨a, hown, s', hstep⟩
  obtain ⟨env, rfl⟩ := Action.eq_run_of_runOf hown
  obtain ⟨_, hrun, hstep⟩ := bind_eq_ok.mp hstep
  rw [runThread, h.threads t (require_eq_ok.mp hrun)] at hstep
  cases hstep

theorem Resting.not_works
    (h : Resting cfg s) :
    ¬ Enabled (step cfg) (fun a => a.workOf u = true) s := by
  rintro ⟨a, hown, s', hstep⟩
  obtain ⟨stack, rfl⟩ := Action.eq_work_of_workOf hown
  obtain ⟨_, hu, hstep⟩ := bind_eq_ok.mp hstep
  obtain ⟨hwaiting, hefd⟩ := h.workers u (require_eq_ok.mp hu)
  unfold ebSrvFactoryExec at hstep
  dsimp only at hstep
  rw [if_pos hwaiting] at hstep
  obtain ⟨_, hwake, -⟩ := bind_eq_ok.mp hstep
  have hpos := require_eq_ok.mp hwake
  omega

/-- A run to a server at rest goes on for ever, and nobody is held up. -/
theorem exists_endless_of_resting
    (good : Server → Action → Prop) [∀ s a, Decidable (good s a)]
    (as bs : List Action)
    (check : Server → Bool)
    (harrive : ∀ s, good s .arrive)
    (hmiddle : endsIn (guarded (step cfg) good .disabled) (ebSrvNew cfg) as check = true)
    {resting : Server → Bool}
    (hrest : ∀ s, resting s = true → Resting cfg s)
    (hends : endsIn (guarded (step cfg) good .disabled) (ebSrvNew cfg) (as ++ bs) resting =
      true) :
    ∃ r : Endless (step cfg) good (ebSrvNew cfg),
      (∀ t, r.Fair fun a => a.runOf t = true) ∧ (∀ u, r.Fair fun a => a.workOf u = true) ∧
        check (r.state as.length) = true := by
  obtain ⟨t, hprefix, hcheck⟩ := run_of_endsIn hmiddle
  obtain ⟨s', hrun, hresting⟩ := run_of_endsIn hends
  obtain ⟨rest, hrests⟩ : ∃ r : Endless (step cfg) good s', ∀ n, Resting cfg (r.state n) :=
    exists_repeat (a := .arrive) (fun s h => ⟨harrive s, _, rfl, ⟨h.threads, h.workers⟩⟩)
      (hrest s' hresting)
  obtain ⟨r, hfair, hstates⟩ := exists_append hrun rest
  refine ⟨r, fun t => hfair _ ?_, fun u => hfair _ ?_, hstates as bs t rfl hprefix ▸ hcheck⟩
  · exact fair_of_not_enabled fun n => (hrests n).not_runs
  · exact fair_of_not_enabled fun n => (hrests n).not_works

end Rest

namespace Small

/-- Nobody is at work in the small server. -/
def resting (s : Server) : Bool :=
  decide (∀ t, cfg.Runs t → s.pc t = .idle) && decide ((s.units 0).waiting = true) &&
    decide ((s.units 0).efd = 0)

theorem resting_of_check
    {s : Server}
    (h : resting s = true) :
    Resting cfg s := by
  unfold resting at h
  simp only [Bool.and_eq_true, decide_eq_true_eq] at h
  obtain ⟨⟨hthreads, hwaiting⟩, hefd⟩ := h
  refine ⟨hthreads, fun u hu => ?_⟩
  obtain rfl : u = 0 := by
    have hnum : cfg.num = 1 := by decide
    omega
  exact ⟨hwaiting, hefd⟩

end Small

/-- **Every accepted connection is announced.**  In an endless tame run in which the
master is not held up for ever, the descriptors accepted so far are those of the
first `EB_CONNECT` calls, in the order of their acceptance, now or later. -/
theorem accepted_eventually_connected
    {cfg : Cfg}
    (hcfg : cfg.Fits)
    (hcallback : cfg.callbacks .EB_CONNECT = true)
    (r : Endless (step cfg) Tame (ebSrvNew cfg))
    (hfair : r.Fair fun a => a.runOf .master = true)
    (n : Nat) :
    ∃ m, n ≤ m ∧
      (acceptedOf (r.state n).log).map (fun fd : Fd => ((fd : Nat) : Int)) <+:
        connectsOf (r.state m).log := by
  cases hnone : acceptedOf (r.state n).log with
  | nil => exact ⟨n, Nat.le.refl, List.nil_prefix⟩
  | cons fd rest =>
      have hacc : Accepted (r.state n).log fd := by
        rw [← mem_acceptedOf, hnone]
        exact List.mem_cons_self
      obtain ⟨m, hnm, hidle⟩ := leadsTo_idle hcfg (t := .master) trivial hfair n
        (started_of_accepted (r.reach n) hacc)
      refine ⟨m, hnm, ?_⟩
      rw [(masterSide_of_reach (r.reach m)).connects_of_idle hcallback hidle, ← hnone]
      obtain ⟨notes, hlog⟩ := log_prefix (r := r) hnm
      rw [← hlog, acceptedOf_append, List.map_append]
      exact List.prefix_append _ _

/-- A client has just been accepted, and is announced. -/
theorem accepted_eventually_connected_seven :
    ∃ (r : Endless (step Small.cfg) Tame Small.start) (n m : Nat),
      acceptedOf (r.state n).log = [7] ∧ connectsOf (r.state n).log = [] ∧ n ≤ m ∧
        [7] <+: connectsOf (r.state m).log := by
  obtain ⟨r, hthreads, -, hcheck⟩ := exists_endless_of_resting Tame
    (Small.boot ++ [Small.worker] ++ (Small.handOff 7).take 4)
    ((Small.handOff 7).drop 4 ++ Small.connect ++ Small.register)
    (fun s => decide (acceptedOf s.log = [7]) && decide (connectsOf s.log = []))
    (fun _ => ⟨⟨trivial, trivial⟩, trivial⟩) (by decide +kernel)
    (fun _ => Small.resting_of_check) (by decide +kernel)
  simp only [Bool.and_eq_true, decide_eq_true_eq] at hcheck
  obtain ⟨haccepted, hconnects⟩ := hcheck
  obtain ⟨m, hnm, hprefix⟩ := accepted_eventually_connected Small.cfg_fits rfl r
    (hthreads .master) _
  rw [haccepted] at hprefix
  exact ⟨r, _, m, haccepted, hconnects, hnm, hprefix⟩

/-! ## Packets are handled -/

section Units

variable {cfg : Cfg} {s s' : Server} {a : Action} {u : Nat}

/-- What the moves of the others do to a unit. -/
theorem Move.unit_other
    (h : Move cfg s a s')
    (ha : a.workOf u = false) :
    (s'.units u).waiting = (s.units u).waiting ∧
      (s.units u).efd ≤ (s'.units u).efd ∧
      handledOf u s'.log = handledOf u s.log := by
  have hworker : ∀ {u' : Nat}, (u' == u) = false → u ≠ u' :=
    fun h he => beq_eq_false_iff_ne.mp h he.symm
  have hsilent : ∀ {notes}, (∀ x ∈ notes, x.ofFactory = false) →
      handledOf u (s.log ++ notes) = handledOf u s.log := by
    intro notes hnotes
    rw [handledOf_append, (projections_of_not_ofFactory hnotes).2.1, List.append_nil]
  cases h with
  | writable => exact ⟨rfl, Nat.le.refl, hsilent callback_thread_not_ofFactory⟩
  | announced => exact ⟨rfl, Nat.le.refl, hsilent callback_thread_not_ofFactory⟩
  | rejected => exact ⟨rfl, Nat.le.refl, hsilent (by simp [Note.ofFactory])⟩
  | accepted => exact ⟨rfl, Nat.le.refl, hsilent (by simp [Note.ofFactory])⟩
  | received => exact ⟨rfl, Nat.le.refl, hsilent (by simp [Note.ofFactory])⟩
  | @refused _ _ fd =>
      refine ⟨?_, ?_, hsilent (by simp [Note.ofFactory])⟩
      all_goals
        by_cases hu : u = cfg.unitOf fd
        · subst hu
          simp
        · simp [update_of_ne hu]
  | @pushed _ _ fd n d =>
      refine ⟨?_, ?_, ?_⟩
      · by_cases hu : u = cfg.unitOf fd
        · subst hu
          simp
        · simp [update_of_ne hu]
      · by_cases hu : u = cfg.unitOf fd
        · subst hu
          simp
        · simp [update_of_ne hu]
      · simp only [Server.goto_log, Server.note_log, Server.setUnit_log]
        rw [handledOf_append]
        exact List.append_nil _
  | @notified _ _ u' =>
      refine ⟨?_, ?_, rfl⟩
      all_goals
        by_cases hu : u = u'
        · subst hu
          simp
        · simp [update_of_ne hu]
  | woke =>
      have hu := hworker ha
      exact ⟨by simp [update_of_ne hu], by simp [update_of_ne hu], rfl⟩
  | @handled u' _ _ _ d stream =>
      have hu := hworker ha
      refine ⟨by simp [update_of_ne hu], by simp [update_of_ne hu], ?_⟩
      simp only [Server.note_log, Server.setUnit_log]
      rw [handledOf_append, handledOf_handled, if_neg (Ne.symm hu), List.append_nil]
  | emptied =>
      have hu := hworker ha
      exact ⟨by simp [update_of_ne hu], by simp [update_of_ne hu], rfl⟩
  | _ => exact ⟨rfl, Nat.le.refl, rfl⟩

/-- What a run of the handler does while packets are pending: it wakes up, or it
handles one. -/
theorem Delivers.work
    {stack : Nat → UInt8}
    (h : Delivers cfg s)
    (hpending : (handledOf u s.log).length < (pushedOf u s.log).length)
    (hstep : step cfg s (.work u stack) = .ok s') :
    (s.units u).waiting = true ∧ (s'.units u).waiting = false ∧ s'.log = s.log ∨
      (handledOf u s'.log).length = (handledOf u s.log).length + 1 := by
  cases step_move hstep with
  | woke _ hwaiting => exact .inl ⟨hwaiting, by simp, rfl⟩
  | @handled _ _ _ _ d stream =>
      right
      simp only [Server.note_log, Server.setUnit_log]
      rw [handledOf_append, handledOf_handled, if_pos rfl, List.length_append,
        List.length_singleton]
  | emptied _ hpop hret =>
      obtain ⟨pending, hring, hpushed⟩ := h.rings u
      rcases hring.pop capInRange_ringCap (h.pending_inRange hpushed) hpop with
        ⟨rfl, -, -⟩ | ⟨pending', -, rfl, -⟩
      · rw [hpushed, List.append_nil] at hpending
        exact absurd hpending (Nat.lt_irrefl _)
      · exact absurd (by decide) hret

/-- How far the worker of a unit is from taking its next packet: it is asleep and
not woken, asleep and woken, or awake. -/
def Wunit.sleep (w : Wunit) : Nat :=
  if w.waiting then if w.efd = 0 then 2 else 1 else 0

/-- Exactly `k` packets of the unit are handled, and more are pushed. -/
def Behind (u k : Nat) (s : Server) : Prop :=
  (handledOf u s.log).length = k ∧ k < (pushedOf u s.log).length

/-- A step of the others neither handles packets nor puts the worker to sleep. -/
theorem Behind.other
    {k : Nat}
    (h : Behind u k s)
    (ha : a.workOf u = false)
    (hmove : Move cfg s a s') :
    Behind u k s' ∧ (s'.units u).sleep ≤ (s.units u).sleep := by
  obtain ⟨hwaiting, hefd, hhandled⟩ := hmove.unit_other ha
  obtain ⟨notes, hlog⟩ := hmove.log_append
  refine ⟨⟨by rw [hhandled]; exact h.1, ?_⟩, ?_⟩
  · have hlt := h.2
    rw [hlog, pushedOf_append, List.length_append]
    omega
  · unfold Wunit.sleep
    rw [hwaiting]
    repeat' split
    all_goals omega

/-- A step of its worker handles one or wakes it up. -/
theorem Behind.work
    {k : Nat} {stack : Nat → UInt8}
    (h : Behind u k s)
    (hdel : Delivers cfg s)
    (hstep : step cfg s (.work u stack) = .ok s') :
    k < (handledOf u s'.log).length ∨
      Behind u k s' ∧ (s'.units u).sleep < (s.units u).sleep := by
  have hlt : (handledOf u s.log).length < (pushedOf u s.log).length := h.1 ▸ h.2
  rcases hdel.work hlt hstep with ⟨hwaiting, hawake, hlog⟩ | hone
  · refine .inr ⟨⟨hlog ▸ h.1, hlog ▸ h.2⟩, ?_⟩
    unfold Wunit.sleep
    rw [hwaiting, hawake, if_pos rfl, if_neg (by simp)]
    split <;> omega
  · have hk := h.1
    exact .inl (by omega)

/-- One step, whoever takes it. -/
theorem Behind.step
    {k : Nat}
    (h : Behind u k s)
    (hdel : Delivers cfg s)
    (hstep : step cfg s a = .ok s') :
    k < (handledOf u s'.log).length ∨
      Behind u k s' ∧ (s'.units u).sleep ≤ (s.units u).sleep := by
  cases ha : a.workOf u with
  | false => exact .inr (h.other ha (step_move hstep))
  | true =>
      obtain ⟨stack, rfl⟩ := Action.eq_work_of_workOf ha
      exact (h.work hdel hstep).imp_right fun hless => ⟨hless.1, Nat.le_of_lt hless.2⟩

/-- What holds in a run about a unit. -/
structure Served (cfg : Cfg) (u : Nat) (s : Server) : Prop where
  delivers : Delivers cfg s
  attended : UnitAttended u s
  absent : ∀ t, ¬ cfg.Runs t → s.pc t = .boot

theorem served_of_reach
    {good : Server → Action → Prop}
    (hreach : Reach (step cfg) good (ebSrvNew cfg) s) :
    Served cfg u s :=
  ⟨delivers_of_reach hreach, unitAttended_of_reach hreach,
    fun _ ht => pc_boot_of_not_runs hreach ht⟩

variable {good : Server → Action → Prop} {r : Endless (step cfg) good (ebSrvNew cfg)}

/-- A sleeping worker with a packet in its ring is woken. -/
theorem leadsTo_woken
    {t : Tid} {k : Nat}
    (hfair : r.Fair fun a => a.runOf t = true) :
    r.LeadsTo (fun s => s.pc t = .notify u ∧ Behind u k s ∧ (s.units u).sleep = 2)
      (fun s => k < (handledOf u s.log).length ∨ Behind u k s ∧ (s.units u).sleep < 2) := by
  -- the write of the thread is what wakes it
  have hwrite : ∀ {s s' env}, s.pc t = .notify u → Move cfg s (.run t env) s' →
      (s'.units u).sleep < 2 := by
    intro s s' env hpc hmove
    cases hmove with
    | notified _ hpc' =>
        cases hpc.symm.trans hpc'
        rw [Server.goto_units, Server.setUnit_units, update_self]
        simp only [Wunit.sleep, Nat.succ_ne_zero, if_false]
        split <;> omega
    | ignored _ hpc' => exact absurd (hpc.symm.trans hpc') nofun
    | writable _ hpc' => exact absurd (hpc.symm.trans hpc') nofun
    | _ => simp_all
  refine leadsTo_of_fair hfair (fun n => served_of_reach (u := u) (r.reach n)) ?_ ?_ ?_
  · rintro s a s' hserved ⟨hpc, hbehind, hsleep⟩ - hstep
    have hmove := step_move hstep
    rcases hbehind.step hserved.delivers hstep with hdone | ⟨hbehind', hle⟩
    · exact .inr (.inl hdone)
    · by_cases ha : a.thread = some t
      · obtain ⟨env, rfl⟩ := hmove.run_of_thread ha (by rw [hpc]; exact nofun)
        exact .inr (.inr ⟨hbehind', hwrite hpc hmove⟩)
      · by_cases hsleep' : (s'.units u).sleep = 2
        · exact .inl ⟨(hmove.pc_other ha).trans hpc, hbehind', hsleep'⟩
        · exact .inr (.inr ⟨hbehind', by omega⟩)
  · rintro s a s' hserved ⟨hpc, hbehind, -⟩ hown - hstep
    obtain ⟨env, rfl⟩ := Action.eq_run_of_runOf hown
    exact (hbehind.step hserved.delivers hstep).imp_right fun hkeep =>
      ⟨hkeep.1, hwrite hpc (step_move hstep)⟩
  · rintro s hserved ⟨hpc, -, -⟩
    have hrun : cfg.Runs t := by
      by_contra hnot
      exact absurd ((hserved.absent t hnot).symm.trans hpc) nofun
    have hreq : require (cfg.Runs t) = .ok () := require_eq_ok.mpr hrun
    refine ⟨.run t Small.env, beq_self_eq_true t, clientReadNotify s t u, ?_⟩
    simp only [step, hreq, ok_bind, runThread, hpc]

/-- A unit that is behind handles a packet. -/
theorem leadsTo_handled
    (hu : u < cfg.num)
    (hthreads : ∀ t, cfg.Runs t → r.Fair fun a => a.runOf t = true)
    (hworker : r.Fair fun a => a.workOf u = true)
    (k : Nat) :
    r.LeadsTo (Behind u k) (fun s => k < (handledOf u s.log).length) := by
  refine leadsTo_of_rank (fun s => (s.units u).sleep) fun j => ?_
  -- a worker that is awake or woken takes the step itself
  have hown : j < 2 → r.LeadsTo (fun s => Behind u k s ∧ (s.units u).sleep = j)
      (fun s => k < (handledOf u s.log).length ∨ Behind u k s ∧ (s.units u).sleep < j) := by
    intro hj
    refine leadsTo_of_fair hworker (fun n => served_of_reach (u := u) (r.reach n)) ?_ ?_ ?_
    · rintro s a s' hserved ⟨hbehind, hsleep⟩ - hstep
      rcases hbehind.step hserved.delivers hstep with hdone | ⟨hbehind', hle⟩
      · exact .inr (.inl hdone)
      · by_cases hsleep' : (s'.units u).sleep = j
        · exact .inl ⟨hbehind', hsleep'⟩
        · exact .inr (.inr ⟨hbehind', by omega⟩)
    · rintro s a s' hserved ⟨hbehind, hsleep⟩ hmine - hstep
      obtain ⟨stack, rfl⟩ := Action.eq_work_of_workOf hmine
      exact hsleep ▸ hbehind.work hserved.delivers hstep
    · rintro s hserved ⟨-, hsleep⟩
      have hwake : (s.units u).waiting = true → 0 < (s.units u).efd := by
        intro hwaiting
        unfold Wunit.sleep at hsleep
        rw [if_pos hwaiting] at hsleep
        split at hsleep <;> omega
      obtain ⟨s', hstep⟩ := hserved.delivers.work_returns (fun _ => 0) hu hwake
      refine ⟨_, ?_, s', hstep⟩
      exact beq_self_eq_true u
  intro n hn
  by_cases hj : j < 2
  · exact hown hj n hn
  · -- somebody is about to wake it
    obtain ⟨hbehind, hsleep⟩ := hn
    have hserved := served_of_reach (u := u) (r.reach n)
    obtain ⟨hwaiting, hefd, rfl⟩ : ((r.state n).units u).waiting = true ∧
        ((r.state n).units u).efd = 0 ∧ j = 2 := by
      unfold Wunit.sleep at hsleep
      repeat' split at hsleep
      all_goals first | omega | exact ⟨by assumption, by assumption, hsleep.symm⟩
    rcases hserved.attended hwaiting hefd with hempty | ⟨t, hpc⟩
    · -- the ring is not empty
      obtain ⟨pending, hring, hpushed⟩ := hserved.delivers.rings u
      have hnum := hring.num capInRange_ringCap
      obtain ⟨hk, hlt⟩ := hbehind
      rw [hpushed, List.length_append] at hlt
      cases pending with
      | nil =>
          rw [List.length_nil] at hlt
          omega
      | cons d pending =>
          rw [hempty, List.length_cons] at hnum
          omega
    · have hrun : cfg.Runs t := by
        by_contra hnot
        exact absurd ((hserved.absent t hnot).symm.trans hpc) nofun
      exact leadsTo_woken (hthreads t hrun) n ⟨hpc, hbehind, hsleep⟩

end Units

/-- **Every packet pushed is handled.**  In an endless run in which no thread and not
the worker of the unit is held up for ever, what has been pushed into the ring of
the unit is what its handler pops first, in this order. -/
theorem pushed_eventually_handled
    {cfg : Cfg} {good : Server → Action → Prop} {u : Nat}
    (hu : u < cfg.num)
    (r : Endless (step cfg) good (ebSrvNew cfg))
    (hthreads : ∀ t, cfg.Runs t → r.Fair fun a => a.runOf t = true)
    (hworker : r.Fair fun a => a.workOf u = true)
    (n : Nat) :
    ∃ m, n ≤ m ∧ pushedOf u (r.state n).log <+: handledOf u (r.state m).log := by
  have hgrow : ∀ {n m}, n ≤ m → pushedOf u (r.state n).log <+: pushedOf u (r.state m).log := by
    intro n m hnm
    obtain ⟨notes, hlog⟩ := log_prefix (r := r) hnm
    rw [← hlog, pushedOf_append]
    exact List.prefix_append _ _
  let K := (pushedOf u (r.state n).log).length
  have hcount : r.LeadsTo (fun s => K ≤ (pushedOf u s.log).length)
      (fun s => K ≤ (handledOf u s.log).length) := by
    refine leadsTo_of_rank (fun s => K - (handledOf u s.log).length) fun j => ?_
    rintro n ⟨hpushed, hj⟩
    by_cases hdone : K ≤ (handledOf u (r.state n).log).length
    · exact ⟨n, Nat.le.refl, .inl hdone⟩
    · obtain ⟨m, hnm, hmore⟩ := leadsTo_handled hu hthreads hworker _ n ⟨rfl, by omega⟩
      have hlen := (hgrow hnm).length_le
      exact ⟨m, hnm, .inr ⟨by omega, by omega⟩⟩
  obtain ⟨m, hnm, hle⟩ := hcount n Nat.le.refl
  obtain ⟨pending, -, hpushed⟩ := (delivers_of_reach (r.reach m)).rings u
  have hhandled : handledOf u (r.state m).log <+: pushedOf u (r.state m).log :=
    hpushed ▸ List.prefix_append _ _
  exact ⟨m, hnm, List.prefix_of_prefix_length_le (hgrow hnm) hhandled hle⟩

/-- A byte has just been pushed, and is handled. -/
theorem pushed_eventually_handled_one_byte :
    ∃ (r : Endless (step Small.cfg) anyMove Small.start) (n m : Nat),
      pushedOf 0 (r.state n).log = [packed 7 Small.oneByte] ∧
        handledOf 0 (r.state n).log = [] ∧ n ≤ m ∧
        [packed 7 Small.oneByte] <+: handledOf 0 (r.state m).log := by
  obtain ⟨r, hthreads, hworkers, hcheck⟩ := exists_endless_of_resting anyMove
    (Small.boot ++ Small.client 7 ++ (Small.chunk 7).take 4)
    ((Small.chunk 7).drop 4 ++ List.replicate 4 Small.worker)
    (fun s => decide (pushedOf 0 s.log = [packed 7 Small.oneByte]) &&
      decide (handledOf 0 s.log = []))
    (fun _ => trivial) (by decide +kernel) (fun _ => Small.resting_of_check)
    (by decide +kernel)
  simp only [Bool.and_eq_true, decide_eq_true_eq] at hcheck
  obtain ⟨hpushed, hhandled⟩ := hcheck
  obtain ⟨m, hnm, hprefix⟩ := pushed_eventually_handled (u := 0) (by decide) r
    (fun t _ => hthreads t) (hworkers 0) _
  rw [hpushed] at hprefix
  exact ⟨r, _, m, hpushed, hhandled, hnm, hprefix⟩

/-! ## What is received is passed on -/

/-- The moves are tame, and the rings have room. -/
def Roomy (cfg : Cfg) (s : Server) (a : Action) : Prop :=
  Tame s a ∧ FindsRoom cfg s a

instance (cfg : Cfg) (s : Server) : DecidablePred (Roomy cfg s) :=
  fun _ => inferInstanceAs (Decidable (_ ∧ _))

section Received

variable {cfg : Cfg} {s s' : Server} {a : Action} {t : Tid} {fd : Fd}
variable {r : Endless (step cfg) (Roomy cfg) (ebSrvNew cfg)}

/-- What is put for a descriptor is among what is pushed for it. -/
theorem putFor_sublist
    (fd : Fd) (log : List Note) :
    (putFor fd log).Sublist (pushedFor fd log) := by
  have hput : putFor fd log = pushedFor fd (log.filter fun x => !x.pushedZero) := by
    unfold putFor pushedFor
    rw [List.filterMap_filter]
    refine List.filterMap_congr fun x _ => ?_
    cases x with
    | pushed u fd' n d =>
        by_cases hn : n = 0
        · simp [Note.pushedZero, hn]
        · simp [Note.pushedZero, hn]
    | _ => simp
  rw [hput]
  exact List.filter_sublist.filterMap _

theorem putFor_length_le
    (fd : Fd)
    (h : Move cfg s a s') :
    (putFor fd s.log).length ≤ (putFor fd s'.log).length := by
  obtain ⟨notes, hlog⟩ := h.log_append
  rw [hlog, putFor_append, List.length_append]
  exact Nat.le_add_right _ _

/-- A thread that owes something goes on owing it, or puts it into the ring. -/
theorem Move.owed_run
    {env : Env}
    (h : Move cfg s (.run t env) s')
    (hdel : Delivers cfg s)
    (hroom : FindsRoom cfg s (.run t env))
    (howed : owed fd (s.pc t) ≠ []) :
    owed fd (s'.pc t) ≠ [] ∨ (putFor fd s.log).length < (putFor fd s'.log).length := by
  cases h with
  | @closedNone _ _ d i fd' _ hpc =>
      left
      rw [Server.goto_pc_self, owed_closed, ← hpc]
      exact howed
  | @closed _ _ d i fd' _ _ _ _ hpc =>
      left
      rw [Server.goto_pc_self, owed_closed, ← hpc]
      exact howed
  | @refused _ _ fd' n d ret rq _ hpc hpush hret =>
      simp only [FindsRoom, hpc] at hroom
      exact absurd hret (hdel.not_refused hroom hpush)
  | @pushed _ _ fd' n d ret rq _ hpc =>
      right
      rw [hpc] at howed
      simp only [owed, ne_eq, ite_eq_right_iff, reduceCtorEq, imp_false, not_not] at howed
      simp only [Server.goto_log, Server.note_log, Server.setUnit_log]
      rw [putFor_append, List.length_append]
      simp [putFor, howed]
  | _ => simp_all [owed]

/-- What a thread owes it puts into the ring. -/
theorem leadsTo_put
    (hcfg : cfg.Fits)
    (hfair : r.Fair fun a => a.runOf t = true)
    (k : Nat) :
    r.LeadsTo (fun s => owed fd (s.pc t) ≠ [] ∧ (putFor fd s.log).length = k)
      (fun s => k < (putFor fd s.log).length) := by
  -- where something is owed, the thread is inside its callback
  have hinside : ∀ {s : Server}, owed fd (s.pc t) ≠ [] → s.pc t ≠ .boot ∧ s.pc t ≠ .idle := by
    refine fun howed => ⟨fun he => ?_, fun he => ?_⟩
    · exact howed (by rw [he]; rfl)
    · exact howed (by rw [he]; rfl)
  refine leadsTo_of_rank (stepsLeft t) fun j => ?_
  refine leadsTo_of_fair (J := fun s => Sound cfg s ∧ ∀ t, ¬ cfg.Runs t → s.pc t = .boot) hfair
    (fun n => ⟨sound_of_reach hcfg ((r.reach n).mono fun _ _ h => h.1),
      fun t ht => pc_boot_of_not_runs (r.reach n) ht⟩) ?_ ?_ ?_
  · rintro s a s' ⟨hsound, -⟩ ⟨⟨howed, hk⟩, hj⟩ hgood hstep
    have hmove := step_move hstep
    have hle := putFor_length_le fd hmove
    by_cases hmore : k < (putFor fd s'.log).length
    · exact .inr (.inl hmore)
    · have hk' : (putFor fd s'.log).length = k := by omega
      by_cases ha : a.thread = some t
      · obtain ⟨env, rfl⟩ := hmove.run_of_thread ha (hinside howed).2
        rcases hmove.owed_run hsound.delivers hgood.2 howed with howed' | hput
        · exact .inr (.inr ⟨⟨howed', hk'⟩, hj ▸ hmove.stepsLeft_run⟩)
        · omega
      · refine .inl ?_
        rw [hmove.pc_other ha, hmove.stepsLeft_other ha]
        exact ⟨⟨howed, hk'⟩, hj⟩
  · rintro s a s' ⟨hsound, -⟩ ⟨⟨howed, hk⟩, hj⟩ hown hgood hstep
    obtain ⟨env, rfl⟩ := Action.eq_run_of_runOf hown
    have hmove := step_move hstep
    have hle := putFor_length_le fd hmove
    by_cases hmore : k < (putFor fd s'.log).length
    · exact .inl hmore
    · rcases hmove.owed_run hsound.delivers hgood.2 howed with howed' | hput
      · exact .inr ⟨⟨howed', by omega⟩, hj ▸ hmove.stepsLeft_run⟩
      · exact .inl (by omega)
  · rintro s ⟨hsound, habsent⟩ ⟨⟨howed, -⟩, -⟩
    obtain ⟨hboot, hidle⟩ := hinside howed
    have hrun : cfg.Runs t := by
      by_contra hnot
      exact hboot (habsent t hnot)
    exact hsound.enabled hcfg hrun hboot hidle

/-- Everything observed is put into a ring. -/
theorem observed_eventually_put
    (hcfg : cfg.Fits)
    (hthreads : ∀ t, cfg.Runs t → r.Fair fun a => a.runOf t = true)
    (fd : Fd)
    (n : Nat) :
    ∃ m, n ≤ m ∧ observedFor fd (r.state n).log <+: putFor fd (r.state m).log := by
  have hreceived : ∀ m, Received fd (r.state m) := fun m =>
    received_of_reach (fun _ _ h => h.1.1.1) (fun _ _ h => h.2) (r.reach m)
  obtain ⟨t, -, heq⟩ := hreceived n
  by_cases howed : owed fd ((r.state n).pc t) = []
  · rw [howed, List.append_nil] at heq
    exact ⟨n, Nat.le.refl, heq ▸ List.prefix_refl _⟩
  · have hrun : cfg.Runs t := by
      by_contra hnot
      refine howed ?_
      rw [pc_boot_of_not_runs (r.reach n) hnot]
      rfl
    obtain ⟨m, hnm, hmore⟩ := leadsTo_put hcfg (hthreads t hrun) _ n ⟨howed, rfl⟩
    refine ⟨m, hnm, ?_⟩
    obtain ⟨t', -, heq'⟩ := hreceived m
    have hobserved : observedFor fd (r.state n).log <+: observedFor fd (r.state m).log := by
      obtain ⟨notes, hlog⟩ := log_prefix (r := r) hnm
      rw [← hlog, observedFor_append]
      exact List.prefix_append _ _
    have hone : (owed fd ((r.state n).pc t)).length ≤ 1 := by
      unfold owed
      repeat' split
      all_goals simp
    refine List.prefix_of_prefix_length_le hobserved (heq' ▸ List.prefix_append _ _) ?_
    rw [heq, List.length_append]
    omega

end Received

/-- **What is received reaches the application.**  In an endless tame run in which
the rings have room and neither a thread nor a worker is held up for ever, every
chunk and every close notice taken off a client socket is passed to `EB_RECV` or
`EB_CLOSE`, in the order in which they were received. -/
theorem observed_eventually_passed
    {cfg : Cfg}
    (hcfg : cfg.Fits)
    (hrecv : cfg.callbacks .EB_RECV = true)
    (hclose : cfg.callbacks .EB_CLOSE = true)
    (r : Endless (step cfg) (Roomy cfg) (ebSrvNew cfg))
    (hthreads : ∀ t, cfg.Runs t → r.Fair fun a => a.runOf t = true)
    (hworkers : ∀ u, u < cfg.num → r.Fair fun a => a.workOf u = true)
    (fd : Fd)
    (n : Nat) :
    ∃ m, n ≤ m ∧
      ((observedFor fd (r.state n).log).map PackData.content).Sublist
        (passedFor (cfg.unitOf fd) fd (r.state m).log) := by
  have hu : cfg.unitOf fd < cfg.num := Nat.mod_lt _ (orFour_pos _)
  obtain ⟨m₁, hnm, hput⟩ := observed_eventually_put hcfg hthreads fd n
  obtain ⟨m₂, hmm, hhandled⟩ := pushed_eventually_handled hu r hthreads (hworkers _ hu) m₁
  refine ⟨m₂, hnm.trans hmm, ?_⟩
  have hdel := delivers_of_reach (r.reach m₂)
  have hpassed : passedFor (cfg.unitOf fd) fd (r.state m₂).log =
      (handledFor cfg fd (r.state m₂).log).map PackData.content := by
    rw [passedFor, hdel.passed hrecv hclose, List.filter_map, List.map_map]
    rfl
  -- what is put is among what is pushed, and what is pushed is handled
  have hfirst : (observedFor fd (r.state n).log).Sublist (pushedFor fd (r.state m₁).log) :=
    hput.sublist.trans (putFor_sublist fd _)
  have hsecond : (pushedFor fd (r.state m₁).log).Sublist
      (handledFor cfg fd (r.state m₂).log) := by
    rw [(delivers_of_reach (r.reach m₁)).pushedFor_eq]
    exact hhandled.sublist.filter _
  rw [hpassed]
  exact (hfirst.trans hsecond).map _

/-- A byte and the close of the peer have just been received, and reach the
application. -/
theorem observed_eventually_passed_one_client :
    ∃ (r : Endless (step Small.cfg) (Roomy Small.cfg) Small.start) (n m : Nat),
      (observedFor 7 (r.state n).log).length = 2 ∧ passedFor 0 7 (r.state n).log = [] ∧
        n ≤ m ∧ ((observedFor 7 (r.state n).log).map PackData.content).Sublist
          (passedFor 0 7 (r.state m).log) := by
  obtain ⟨r, hthreads, hworkers, hcheck⟩ := exists_endless_of_resting (Roomy Small.cfg)
    (Small.boot ++ Small.client 7 ++ Small.chunk 7 ++ (Small.peerClose 7).take 3)
    ((Small.peerClose 7).drop 3 ++ List.replicate 5 Small.worker)
    (fun s => decide ((observedFor 7 s.log).length = 2) && decide (passedFor 0 7 s.log = []))
    (fun _ => ⟨⟨⟨trivial, trivial⟩, trivial⟩, trivial⟩) (by decide +kernel)
    (fun _ => Small.resting_of_check) (by decide +kernel)
  simp only [Bool.and_eq_true, decide_eq_true_eq] at hcheck
  obtain ⟨hobserved, hpassed⟩ := hcheck
  obtain ⟨m, hnm, hsub⟩ := observed_eventually_passed Small.cfg_fits rfl rfl r
    (fun t _ => hthreads t) (fun u _ => hworkers u) 7 _
  exact ⟨r, _, m, hobserved, hpassed, hnm, hsub⟩

end Ebot
