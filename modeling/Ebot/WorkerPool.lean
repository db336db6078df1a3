import Ebot.Delivery

/-!
# Wake-ups of a worker

A unit of the worker pool with everybody who uses it: the producers, each of
which pushes a packet and, if the ring took it, writes 1 to the `eventfd`; the
worker, which checks its status, pops, and reads the `eventfd` when the pop
failed; and `wpool_stop`, which lowers the status and writes 15.  Any of them
may take the next step.

Several writes add up to one wake-up and the worker takes one packet a round,
so what keeps it from sleeping on a packet is that it only sleeps after a failed
pop: whatever was pushed since is announced or about to be.
-/

namespace Ebot

open Function Transition

namespace WorkerPool

/-- Where the worker is in `wpool_exec`. -/
inductive WorkerPc where
  /-- Before it reads the status. -/
  | check
  /-- In the handler, before the pop. -/
  | pop
  /-- Before the read of `efd` that follows a failed pop. -/
  | read
  /-- It has left its loop. -/
  | exited
deriving DecidableEq

/-- Where a producer is. -/
inductive ProducerPc where
  /-- Before a push. -/
  | ready
  /-- Between a push that succeeded and the write to `efd`. -/
  | notify
deriving DecidableEq

/-- Where `wpool_stop` is. -/
inductive StopperPc where
  /-- Before the condition of its loop. -/
  | test
  /-- Before the `FAS` on the status. -/
  | sub
  /-- Before the write to `efd`. -/
  | write
  /-- Before `pthread_join`. -/
  | join
deriving DecidableEq

/-- `wunit`, and where its users are.  `stopped` says that `wpool_stop` has
written to `efd`. -/
structure UnitState where
  rq : Ringq
  efd : Nat
  status : Int
  worker : WorkerPc
  producers : Nat → ProducerPc
  stopper : StopperPc
  stopped : Bool

/-- Whose step is next. -/
inductive Act where
  /-- A producer pushes a packet, whose `int` fields are in range. -/
  | push (i : Nat) (d : { d : PackData // d.InRange })
  /-- A producer notifies the worker. -/
  | notify (i : Nat)
  /-- The worker; `stack` is what `data` in its handler holds before. -/
  | work (stack : Nat → UInt8)
  /-- `wpool_stop`. -/
  | stop

/-- The unit after `wpool_start`. -/
def start (rq : Ringq) : UnitState :=
  { rq, efd := 0, status := 1, worker := .check, producers := fun _ => .ready,
    stopper := .test, stopped := false }

/-- The push of a producer; a refused one ends its callback. -/
def produce (s : UnitState) (i : Nat) (d : PackData) : Except Stop UnitState := do
  require (s.producers i = .ready)
  let (ret, rq) ← pushPack s.rq d
  if ret < 0 then
    .ok { s with rq }
  else
    .ok { s with rq, producers := update s.producers i .notify }

/-- Its write to `efd`. -/
def produceNotify (s : UnitState) (i : Nat) : Except Stop UnitState := do
  require (s.producers i = .notify)
  .ok { s with efd := s.efd + 1, producers := update s.producers i .ready }

/-- `wpool_exec` with the handler `eb_srv_factory_exec`. -/
def wpoolExec (s : UnitState) (stack : Nat → UInt8) : Except Stop UnitState :=
  match s.worker with
  | .check => .ok { s with worker := if s.status = 0 then .exited else .pop }
  | .pop => do
      let (ret, rq, _) ← popPack s.rq stack
      .ok { s with rq, worker := if -1 < ret then .check else .read }
  | .read => do
      require (0 < s.efd)
      .ok { s with efd := 0, worker := .check }
  | .exited => .error .disabled

/-- The loop of `wpool_stop` for the unit. -/
def wpoolStop (s : UnitState) : Except Stop UnitState :=
  match s.stopper with
  | .test => .ok { s with stopper := if s.status = 0 then .join else .sub }
  | .sub => .ok { s with status := s.status - 1, stopper := .write }
  | .write => .ok { s with efd := s.efd + 15, stopper := .test, stopped := true }
  | .join => .error .disabled

/-- One step. -/
def step (s : UnitState) : Act → Except Stop UnitState
  | .push i d => produce s i d
  | .notify i => produceNotify s i
  | .work stack => wpoolExec s stack
  | .stop => wpoolStop s

/-- The worker sleeps in its read. -/
def Blocked (s : UnitState) : Prop := s.worker = .read ∧ s.efd = 0

/-- A packet waits and no producer is about to announce one. -/
def Unannounced (s : UnitState) : Prop :=
  s.rq.num ≠ 0 ∧ ∀ i, s.producers i ≠ .notify

/-- Where the packets of the ring are concerned: a worker that is going to read
has found the ring empty, and whatever came since is announced. -/
structure Announced (cap : Nat) (s : UnitState) (ds : List PackData) : Prop where
  ring : PackRing cap s.rq ds
  range : ∀ d ∈ ds, d.InRange
  reading : s.worker = .read → s.efd = 0 → ds = [] ∨ ∃ i, s.producers i = .notify

/-- Where the stopper is concerned: its write stays in the counter until the
worker reads it, and then the worker sees the status. -/
structure Stopping (s : UnitState) : Prop where
  status : s.status = if s.stopper = .write ∨ s.stopped = true then 0 else 1
  early : s.stopper = .sub ∨ s.stopper = .write → s.stopped = false
  pending : s.stopped = true → s.worker = .pop ∨ s.worker = .read → 15 ≤ s.efd

section Steps

variable {cap : Nat} {s s' : UnitState} {i : Nat} {ds : List PackData}
variable {d : PackData} {stack : Nat → UInt8}

theorem Announced.produce
    (hcap : CapInRange cap)
    (h : Announced cap s ds)
    (hd : d.InRange)
    (hstep : produce s i d = .ok s') :
    ∃ ds', Announced cap s' ds' := by
  unfold WorkerPool.produce at hstep
  obtain ⟨_, -, hstep⟩ := bind_eq_ok.mp hstep
  obtain ⟨⟨ret, rq⟩, hpush, hstep⟩ := bind_eq_ok.mp hstep
  dsimp only at hstep
  rcases h.ring.push hcap hpush with ⟨rfl, -, hring⟩ | ⟨rfl, -, rfl⟩
  · rw [if_neg (by decide)] at hstep
    cases hstep
    refine ⟨ds ++ [d], hring, fun d' hd' => ?_, fun _ _ => .inr ⟨i, by simp⟩⟩
    rcases List.mem_append.mp hd' with hold | hnew
    · exact h.range d' hold
    · cases List.mem_singleton.mp hnew
      exact hd
  · rw [if_pos (by decide)] at hstep
    cases hstep
    exact ⟨ds, h⟩

theorem Announced.notify
    (h : Announced cap s ds)
    (hstep : produceNotify s i = .ok s') :
    Announced cap s' ds := by
  unfold produceNotify at hstep
  obtain ⟨_, -, hstep⟩ := bind_eq_ok.mp hstep
  cases hstep
  exact ⟨h.ring, h.range, fun _ hefd => by simp at hefd⟩

theorem Announced.work
    (hcap : CapInRange cap)
    (h : Announced cap s ds)
    (hstep : wpoolExec s stack = .ok s') :
    ∃ ds', Announced cap s' ds' := by
  unfold wpoolExec at hstep
  cases hpc : s.worker with
  | check =>
      rw [hpc] at hstep
      cases hstep
      refine ⟨ds, h.ring, h.range, fun hread => ?_⟩
      dsimp only at hread
      split at hread <;> cases hread
  | pop =>
      rw [hpc] at hstep
      obtain ⟨⟨ret, rq, d⟩, hpop, hstep⟩ := bind_eq_ok.mp hstep
      cases hstep
      rcases h.ring.pop hcap h.range hpop with ⟨rfl, rfl, rfl⟩ | ⟨ds', rfl, rfl, hring⟩
      · exact ⟨[], h.ring, h.range, fun _ _ => .inl rfl⟩
      · refine ⟨ds', hring, fun d' hd' => h.range d' (List.mem_cons_of_mem _ hd'), ?_⟩
        intro hread
        cases hread
  | read =>
      rw [hpc] at hstep
      obtain ⟨_, -, hstep⟩ := bind_eq_ok.mp hstep
      cases hstep
      exact ⟨ds, h.ring, h.range, nofun⟩
  | exited =>
      rw [hpc] at hstep
      cases hstep

theorem Announced.stop
    (h : Announced cap s ds)
    (hstep : wpoolStop s = .ok s') :
    Announced cap s' ds := by
  unfold wpoolStop at hstep
  cases hpc : s.stopper with
  | test =>
      rw [hpc] at hstep
      cases hstep
      exact ⟨h.ring, h.range, h.reading⟩
  | sub =>
      rw [hpc] at hstep
      cases hstep
      exact ⟨h.ring, h.range, h.reading⟩
  | write =>
      rw [hpc] at hstep
      cases hstep
      exact ⟨h.ring, h.range, fun _ hefd => by simp at hefd⟩
  | join =>
      rw [hpc] at hstep
      cases hstep

/-- Steps that neither touch the status nor take from the counter. -/
theorem Stopping.keep
    (h : Stopping s)
    (hstatus : s'.status = s.status)
    (hstopper : s'.stopper = s.stopper)
    (hstopped : s'.stopped = s.stopped)
    (hworker : s'.worker = s.worker)
    (hefd : s.efd ≤ s'.efd) :
    Stopping s' := by
  refine ⟨?_, ?_, ?_⟩
  · rw [hstatus, hstopper, hstopped]
    exact h.status
  · rw [hstopper, hstopped]
    exact h.early
  · rw [hstopped, hworker]
    exact fun hs hw => (h.pending hs hw).trans hefd

/-- The worker goes on: it passes the check only while the status is 1. -/
theorem Stopping.work
    (h : Stopping s)
    (hstep : wpoolExec s stack = .ok s') :
    Stopping s' := by
  unfold wpoolExec at hstep
  cases hpc : s.worker with
  | check =>
      rw [hpc] at hstep
      cases hstep
      refine ⟨h.status, h.early, fun hs hw => ?_⟩
      have hzero := h.status
      rw [if_pos (.inr hs)] at hzero
      simp [hzero] at hw
  | pop =>
      rw [hpc] at hstep
      obtain ⟨⟨ret, rq, d⟩, -, hstep⟩ := bind_eq_ok.mp hstep
      cases hstep
      exact ⟨h.status, h.early, fun hs _ => h.pending hs (.inl hpc)⟩
  | read =>
      rw [hpc] at hstep
      obtain ⟨_, -, hstep⟩ := bind_eq_ok.mp hstep
      cases hstep
      exact ⟨h.status, h.early, fun _ hw => by simp at hw⟩
  | exited =>
      rw [hpc] at hstep
      cases hstep

theorem Stopping.stop
    (h : Stopping s)
    (hstep : wpoolStop s = .ok s') :
    Stopping s' := by
  unfold wpoolStop at hstep
  have hstatus := h.status
  have hearly := h.early
  cases hpc : s.stopper with
  | test =>
      rw [hpc] at hstep hstatus
      cases hstep
      cases hs : s.stopped with
      | false =>
          simp only [hs, reduceCtorEq, or_self, if_false, Bool.false_eq_true] at hstatus
          refine ⟨?_, ?_, ?_⟩ <;> simp [hstatus]
      | true =>
          simp only [hs, or_true, if_true] at hstatus
          refine ⟨?_, ?_, fun _ hw => h.pending hs hw⟩
          · simp [hstatus]
          · simp [hstatus]
  | sub =>
      rw [hpc] at hstep hstatus
      cases hstep
      have hs := hearly (.inl hpc)
      simp only [hs, reduceCtorEq, or_self, if_false, Bool.false_eq_true] at hstatus
      refine ⟨?_, ?_, ?_⟩ <;> simp [hstatus, hs]
  | write =>
      rw [hpc] at hstep hstatus
      cases hstep
      simp only [true_or, if_true] at hstatus
      refine ⟨?_, ?_, ?_⟩
      · simp [hstatus]
      · simp
      · intro _ _
        simp
  | join =>
      rw [hpc] at hstep
      cases hstep

/-- One step. -/
theorem good_step
    {a : Act}
    (hcap : CapInRange cap)
    (h : (∃ ds, Announced cap s ds) ∧ Stopping s)
    (hstep : step s a = .ok s') :
    (∃ ds, Announced cap s' ds) ∧ Stopping s' := by
  obtain ⟨⟨ds, hann⟩, hstop⟩ := h
  cases a with
  | push i d =>
      refine ⟨hann.produce hcap d.property hstep, ?_⟩
      simp only [step, produce] at hstep
      obtain ⟨_, -, hstep⟩ := bind_eq_ok.mp hstep
      obtain ⟨⟨ret, rq⟩, -, hstep⟩ := bind_eq_ok.mp hstep
      dsimp only at hstep
      split at hstep
      · cases hstep
        exact hstop.keep rfl rfl rfl rfl Nat.le.refl
      · cases hstep
        exact hstop.keep rfl rfl rfl rfl Nat.le.refl
  | notify i =>
      refine ⟨⟨ds, hann.notify hstep⟩, ?_⟩
      simp only [step, produceNotify] at hstep
      obtain ⟨_, -, hstep⟩ := bind_eq_ok.mp hstep
      cases hstep
      exact hstop.keep rfl rfl rfl rfl (Nat.le_add_right _ _)
  | work stack => exact ⟨hann.work hcap hstep, hstop.work hstep⟩
  | stop => exact ⟨⟨ds, hann.stop hstep⟩, hstop.stop hstep⟩

end Steps

theorem ringqNew_use_lock
    {mutexRet size use_lock : Int} {rq : Ringq}
    (hnew : ringqNew true mutexRet size use_lock = some rq) :
    rq.use_lock = use_lock := by
  simp only [ringqNew, if_true] at hnew
  split at hnew
  · cases hnew
  · cases hnew
    rfl

/-- **No lost wake-up, and a clean stop.**  For a ring of any capacity
`ringq_new` can make, any number of producers and any interleaving: while the
worker sleeps in its read, no packet waits unannounced in the ring, and
`wpool_stop` has not written. -/
theorem no_lost_wakeup
    {cap : Nat} {mutexRet : Int} {rq : Ringq} {s : UnitState}
    (hcap : CapInRange cap)
    (hnew : ringqNew true mutexRet cap 1 = some rq)
    (hreach : Reachable step (start rq) s)
    (hblocked : Blocked s) :
    ¬ Unannounced s ∧ s.stopped = false := by
  have hlock : rq.use_lock ≠ 0 := by
    rw [ringqNew_use_lock hnew]
    decide
  have hinit : (∃ ds, Announced cap (start rq) ds) ∧ Stopping (start rq) :=
    ⟨⟨[], ⟨.new mutexRet 1 hnew, hlock⟩, nofun, nofun⟩, rfl, nofun, nofun⟩
  obtain ⟨⟨ds, hann⟩, hstop⟩ := hreach.invariant
    (I := fun s => (∃ ds, Announced cap s ds) ∧ Stopping s) hinit
    fun _ _ _ h _ hstep => good_step hcap h hstep
  obtain ⟨hread, hefd⟩ := hblocked
  refine ⟨?_, ?_⟩
  · rintro ⟨hnum, hnone⟩
    rcases hann.reading hread hefd with rfl | ⟨i, hi⟩
    · exact hnum (by simpa using hann.ring.num hcap)
    · exact hnone i hi
  · cases hs : s.stopped with
    | false => rfl
    | true =>
        have hpending := hstop.pending hs (.inr hread)
        omega

/-- The ring of the factory: two packets are pushed and announced by two producers,
and the worker sleeps only when it has taken both and the wake-ups. -/
theorem no_lost_wakeup_two_packets :
    ∃ t s, Reachable step (start factoryRing) t ∧ t.rq.num = 2 ∧ t.efd = 2 ∧
      Reachable step t s ∧ s.rq.num = 0 ∧ s.efd = 0 ∧ s.worker = .read ∧
      ¬ Unannounced s ∧ s.stopped = false := by
  obtain ⟨t, s, hpushed, htwo, hworked, hcheck⟩ := reachable_of_endsIn_append step
    (start factoryRing)
    [.push 0 ⟨packed 7 .shutdown, packed_inRange⟩,
      .push 1 ⟨packed 8 .shutdown, packed_inRange⟩, .notify 0, .notify 1]
    (List.replicate 9 (.work fun _ => 0))
    (fun t => decide (t.rq.num = 2) && decide (t.efd = 2))
    (fun s => decide (s.rq.num = 0) && decide (s.efd = 0) && decide (s.worker = .read))
    (by decide +kernel) (by decide +kernel)
  simp only [Bool.and_eq_true, decide_eq_true_eq] at htwo hcheck
  obtain ⟨⟨hnum, hefd⟩, hread⟩ := hcheck
  have hnew : ringqNew true 0 (1024 * 10) 1 = some factoryRing := rfl
  exact ⟨t, s, hpushed, htwo.1, htwo.2, hworked, hnum, hefd, hread,
    no_lost_wakeup capInRange_ringCap hnew (hpushed.trans hworked) ⟨hread, hefd⟩⟩

end WorkerPool

/-! ## The workers of the server -/

section Server

variable {cfg : Cfg} {s s' : Server} {a : Action} {u : Nat}

/-- If the worker of a unit sleeps, its ring is empty or a thread is about to
write to its `efd`. -/
def UnitAttended (u : Nat) (s : Server) : Prop :=
  (s.units u).waiting = true → (s.units u).efd = 0 →
    (s.units u).rq.num = 0 ∨ ∃ t, s.pc t = .notify u

/-- Steps that leave the unit alone and lose no notification. -/
theorem UnitAttended.keep
    (h : UnitAttended u s)
    (hunit : s'.units u = s.units u)
    (hpc : ∀ t, s.pc t = .notify u → s'.pc t = .notify u) :
    UnitAttended u s' := by
  unfold UnitAttended at h ⊢
  rw [hunit]
  intro hwaiting hefd
  exact (h hwaiting hefd).imp_right fun ⟨t, ht⟩ => ⟨t, hpc t ht⟩

/-- A worker that sleeps can only wake up. -/
theorem waiting_of_work
    {stack : Nat → UInt8}
    (hwaiting : (s.units u).waiting = true)
    (hstep : step cfg s (.work u stack) = .ok s') :
    (s'.units u).waiting = false := by
  obtain ⟨_, -, hstep⟩ := bind_eq_ok.mp hstep
  unfold ebSrvFactoryExec at hstep
  dsimp only at hstep
  rw [if_pos hwaiting] at hstep
  obtain ⟨_, -, hstep⟩ := bind_eq_ok.mp hstep
  cases hstep
  simp

/-- One step. -/
theorem UnitAttended.step
    (h : UnitAttended u s)
    (hdel : Delivers cfg s)
    (hstep : step cfg s a = .ok s') :
    UnitAttended u s' := by
  have hgoto : ∀ {s₁ : Server} {t pc₀ pc}, s.pc t = pc₀ → pc₀ ≠ .notify u →
      s₁.pc = s.pc → ∀ t', s.pc t' = .notify u → (s₁.goto t pc).pc t' = .notify u := by
    intro s₁ t pc₀ pc hold hne hpcs t' ht'
    have ht : t' ≠ t := by
      rintro rfl
      exact hne (hold.symm.trans ht')
    rw [Server.goto_pc, update_of_ne ht, hpcs]
    exact ht'
  cases step_move hstep with
  | arrived => exact h.keep rfl fun _ => id
  | ignored => exact h.keep rfl fun _ => id
  | writable => exact h.keep rfl fun _ => id
  | @refused t env fd n d ret rq _ hpc hpush hret =>
      refine h.keep ?_ (hgoto hpc nofun rfl)
      obtain ⟨pending, hring, -⟩ := hdel.rings (cfg.unitOf fd)
      rcases hring.push capInRange_ringCap hpush with ⟨rfl, -⟩ | ⟨-, -, rfl⟩
      · omega
      · by_cases hu : u = cfg.unitOf fd
        · subst hu
          simp
        · simp [update_of_ne hu]
  | @pushed t env fd n d ret rq _ hpc hpush hret =>
      by_cases hu : u = cfg.unitOf fd
      · subst hu
        exact fun _ _ => .inr ⟨t, Server.goto_pc_self⟩
      · refine h.keep ?_ (hgoto hpc nofun rfl)
        simp [update_of_ne hu]
  | @notified t env u' _ hpc =>
      by_cases hu : u = u'
      · subst hu
        intro _ hefd
        simp at hefd
      · refine h.keep ?_ (hgoto hpc (fun he => hu (Pc.notify.inj he).symm) rfl)
        simp [update_of_ne hu]
  | @woke u' stack _ hwaiting =>
      by_cases hu : u = u'
      · subst hu
        intro hwaiting'
        simp at hwaiting'
      · exact h.keep (by simp [update_of_ne hu]) fun _ => id
  | @handled u' stack ret rq d stream =>
      by_cases hu : u = u'
      · subst hu
        intro hwaiting
        have hwaiting' : (s.units u).waiting = true := by simpa using hwaiting
        rw [waiting_of_work hwaiting' hstep] at hwaiting
        cases hwaiting
      · exact h.keep (by simp [update_of_ne hu]) fun _ => id
  | @emptied u' stack ret rq d _ hpop hret =>
      by_cases hu : u = u'
      · subst hu
        refine fun _ _ => .inl ?_
        simpa using hdel.num_of_emptied hpop hret
      · exact h.keep (by simp [update_of_ne hu]) fun _ => id
  | booted _ hpc => exact h.keep rfl (hgoto hpc nofun rfl)
  | waited _ hpc => exact h.keep rfl (hgoto hpc nofun rfl)
  | drained _ hpc => exact h.keep rfl (hgoto hpc nofun rfl)
  | started _ hpc => exact h.keep rfl (hgoto hpc nofun rfl)
  | acceptFailed _ hpc => exact h.keep rfl (hgoto hpc nofun rfl)
  | rejected _ hpc => exact h.keep rfl (hgoto hpc nofun rfl)
  | accepted _ hpc => exact h.keep rfl (hgoto hpc nofun rfl)
  | handedOff _ hpc => exact h.keep rfl (hgoto hpc nofun rfl)
  | handOffFailed _ hpc => exact h.keep rfl (hgoto hpc nofun rfl)
  | announced _ hpc => exact h.keep rfl (hgoto hpc nofun rfl)
  | counted _ hpc => exact h.keep rfl (hgoto hpc nofun rfl)
  | pipeEmpty _ hpc => exact h.keep rfl (hgoto hpc nofun rfl)
  | pipeTaken _ hpc => exact h.keep rfl (hgoto hpc nofun rfl)
  | exhausted _ hpc => exact h.keep rfl (hgoto hpc nofun rfl)
  | opened _ hpc => exact h.keep rfl (hgoto hpc nofun rfl)
  | openFailed _ hpc => exact h.keep rfl (hgoto hpc nofun rfl)
  | undone _ hpc => exact h.keep rfl (hgoto hpc nofun rfl)
  | received _ hpc => exact h.keep rfl (hgoto hpc nofun rfl)
  | closedNone _ hpc => exact h.keep rfl (hgoto hpc nofun rfl)
  | closed _ hpc => exact h.keep rfl (hgoto hpc nofun rfl)

/-- **The server loses no wake-up.**  In every reachable state a worker sleeps
only on an empty ring or while somebody is about to wake it. -/
theorem unitAttended_of_reach
    {good : Server → Action → Prop}
    (hreach : Reach (step cfg) good (ebSrvNew cfg) s) :
    UnitAttended u s := by
  refine hreach.invariant_of (J := Delivers cfg) (fun _ hr => delivers_of_reach hr) nofun ?_
  intro s a s' hdel _ h _ hstep
  exact h.step hdel hstep

end Server

end Ebot
