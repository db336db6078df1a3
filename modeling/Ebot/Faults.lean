import Ebot.HandoffOutcome

/-!
# Every step returns

What it takes for no step of the server to be undefined.  The pool needs a
second slab, the descriptors must be below the initial size of the wait tables,
the kernel must grant the removals, and the close path must not remove an event
that is queued.  Then a move that the surroundings allow always leads to a next
state; only the start of a thread can end the process, by the `assert` or the
`err_exit` that is written there.
-/

namespace Ebot

open Function Bytes Words EdgeSource EventState Transition InterestSet

/-- A pool of two slabs or more, descriptors of the threads inside the wait
tables, and a limit that `total_conns` can count to. -/
structure Cfg.Fits (cfg : Cfg) : Prop where
  psz : 2 ≤ cfg.psz
  source : ∀ t, cfg.Runs t → (cfg.sourceFd t : Nat) < EP_SIZE
  limit : 0 ≤ cfg.setting.max_connections ∧ cfg.setting.max_connections < 2147483647

/-- `accept` answers with a descriptor below `EP_SIZE`. -/
def AcceptsInside (s : Server) : Action → Prop
  | .run t env => s.pc t = .accept → ∀ fd ∈ env.accepted, (fd : Nat) < EP_SIZE
  | _ => True

/-- The close path removes only what is not queued, and the kernel consents;
accepted descriptors are below `EP_SIZE`. -/
def Tame (s : Server) (a : Action) : Prop :=
  ClosesUnqueued s a ∧ AcceptsInside s a

instance (s : Server) : DecidablePred (AcceptsInside s)
  | .run t env => by
      dsimp only [AcceptsInside]
      exact @instDecidableForall _ _ inferInstance
        (Option.decidableForallMem (p := fun fd : Fd => (fd : Nat) < EP_SIZE) env.accepted)
  | .arrive | .wait _ _ | .work _ _ => isTrue trivial

instance (s : Server) : DecidablePred (Tame s) :=
  fun _ => inferInstanceAs (Decidable (_ ∧ _))

/-- The surroundings allow the move: the thread exists and is not before its
`epoll_wait`, where it waits for reports; `accept` has a client to answer with;
a worker that sleeps is woken. -/
def Possible (cfg : Cfg) (s : Server) : Action → Prop
  | .arrive => True
  | .wait t reports =>
      cfg.Runs t ∧ s.pc t = .idle ∧ reports.length ≤ (s.events.base t).epsz ∧
        (reports.map Report.fd).Nodup ∧ ∀ rep ∈ reports, mayReport cfg s t rep = true
  | .run t env =>
      cfg.Runs t ∧ s.pc t ≠ .idle ∧
        (s.pc t = .accept → ∀ fd ∈ env.accepted,
          s.backlog.items ≠ [] ∧ s.isOpen fd = false)
  | .work u _ => u < cfg.num ∧ ((s.units u).waiting = true → 0 < (s.units u).efd)

/-- The move leads to a next state. -/
def Returns (cfg : Cfg) (s : Server) (a : Action) : Prop :=
  ∃ s', step cfg s a = .ok s'

/-- The start of a thread ends the process: no slab is left for its event, or
the kernel refuses to add it. -/
def FailsToStart (cfg : Cfg) (s : Server) (a : Action) : Prop :=
  ∃ t env, a = .run t env ∧ s.pc t = .boot ∧
    (¬ SlabLeft s.events ∧ step cfg s a = .error (bootNull t) ∨
      env.ctl = false ∧ step cfg s a = .error (bootAddFail cfg t))

/-! ## What the operations on the shared events need -/

/-- The pool is in order, the bases mirror their tables and have their first
size, and the events in free slabs are linked in no queue. -/
structure Serviceable (E : EventState) : Prop where
  pool : ∃ free busy, E.pool.Ordered free busy
  num : 2 ≤ E.pool.slab_num
  own : ∀ p, E.used p = true → p < E.pool.slab_num
  tables : Tables E
  bases : BasesMirror E
  size : ∀ t, (E.base t).wait_sz = EP_SIZE
  inside : ∀ t d fd p, E.slot t d fd = some p → fd < EP_SIZE
  unlinked : ∀ p, E.used p = false → (E.ev p).queued = false

namespace Serviceable

variable {E : EventState} {t : Tid} {d : Dir} {e : SrvEvent} {ctl : Bool} {fd p : Nat}

/-- A slab that is handed out can be put back. -/
theorem put_returns
    (h : Serviceable E)
    (hused : E.used p = true) :
    ∃ E', E.put p = .ok E' := by
  obtain ⟨free, busy, hpool⟩ := h.pool
  have hbusy : p ∈ busy := by
    rcases List.mem_append.mp ((hpool.slabs p).mpr (h.own p hused)) with hfree | hbusy
    · have hmark : E.used p = false := hpool.unmarked p hfree
      rw [hmark] at hused
      cases hused
    · exact hbusy
  obtain ⟨b₁, b₂, rfl⟩ := List.append_of_mem hbusy
  obtain ⟨pool, hput, -⟩ := hpool.put_busy
  refine ⟨{ E with pool }, ?_⟩
  unfold EventState.put
  rw [hput]
  rfl

/-- Taking a slab and adding its event: no slab is left, or the add answers, with
0 unless the kernel refuses. -/
theorem getAdd_returns
    (h : Serviceable E)
    (ctl : Bool)
    (hd : e.IsFor d)
    (hsup : (E.base t).Supports e)
    (hlt : (e.fd : Nat) < EP_SIZE) :
    ¬ SlabLeft E ∧ E.getAdd t ctl e = .ok (none, E) ∨
      ∃ p ret E', E.getAdd t ctl e = .ok (some (p, ret), E') ∧
        (ctl = true → ret = 0) := by
  obtain ⟨free, busy, hpool⟩ := h.pool
  cases free with
  | nil =>
      have hlen := hpool.length
      have hnum := h.num
      cases busy with
      | nil =>
          simp only [List.length_nil] at hlen
          omega
      | cons x busy =>
          have hget : E.getAdd t ctl e = .ok (none, E) := by
            unfold getAdd
            rw [hpool.get_none]
            rfl
          exact .inl ⟨not_slabLeft_of_getAdd hget, hget⟩
  | cons x free =>
      right
      obtain ⟨pool, hget, -⟩ := hpool.get_some h.num
      have hunq := h.unlinked x (hpool.unmarked x List.mem_cons_self)
      have hinit : eventInit E.ev x e = .ok (update E.ev x e) := by
        unfold eventInit
        rw [if_neg (by simp [hunq])]
      have hlt' : (e.fd : Nat) < (E.base t).wait_sz := by
        rw [h.size]
        exact hlt
      obtain ⟨⟨ret, base⟩, hadd⟩ := (h.bases.mirrors t).whole.returns
        (c := .add (.strict ctl) x e) ⟨⟨d, hd⟩, hlt'⟩
      have hadd' : ebotAddEvent (.strict ctl) (E.base t) x e = .ok (ret, base) := hadd
      refine ⟨x, ret, { pool, ev := update E.ev x e, base := update E.base t base }, ?_, ?_⟩
      · unfold getAdd
        rw [hget]
        simp only [ok_bind, hinit, update_self, hadd']
      · rintro rfl
        exact (h.bases.mirrors t).added_ret hd hsup hadd'

/-- One of the two `if`s of the close path. -/
theorem delPut_returns
    (h : Serviceable E)
    (t : Tid) (d : Dir) (ctl : Bool)
    (hlt : fd < EP_SIZE) :
    ∃ E', E.delPut t ctl d fd = .ok E' := by
  have hlt' : fd < (E.base t).wait_sz := by
    rw [h.size]
    exact hlt
  have hcovers := (h.bases.mirrors t).whole.covers hlt'
  have hget : ((E.base t).waits d).get fd = .ok (E.slot t d fd) := hcovers.get d
  unfold delPut
  rw [hget, ok_bind]
  cases hslot : E.slot t d fd with
  | none => exact ⟨E, rfl⟩
  | some p =>
      have hfor := h.tables.isFor t d fd p hslot
      have hfd := h.tables.fd t d fd p hslot
      obtain ⟨⟨ret, base⟩, hdel⟩ := (h.bases.mirrors t).whole.returns
        (c := .del ctl (E.ev p)) ⟨⟨d, hfor⟩, hfd.symm ▸ hlt'⟩
      have hdel' : ebotDelEvent ctl (E.base t) (E.ev p) = .ok (ret, base) := hdel
      obtain ⟨E', hput⟩ := h.put_returns (h.tables.used t d fd p hslot)
      unfold EventState.put at hput ⊢
      obtain ⟨pool, hpool, -⟩ := bind_eq_ok.mp hput
      simp only [hdel', ok_bind, hpool]
      exact ⟨_, rfl⟩

/-- Reports for watched descriptors. -/
theorem collect_returns
    {reports : List Report}
    (h : Serviceable E)
    (hwatched : ∀ rep ∈ reports, E.watched t rep.fd) :
    ∃ E', E.collect t reports = .ok E' := by
  have hcovers : ∀ rep ∈ reports, (E.base t).Covers rep.fd := by
    intro rep hmem
    refine (h.bases.mirrors t).whole.covers ?_
    rw [h.size]
    rcases ((h.bases.mirrors t).iff rep.fd).1.mp (hwatched rep hmem) with hslot | hslot
    · obtain ⟨p, hp⟩ := Option.ne_none_iff_exists'.mp hslot
      exact h.inside t .read rep.fd p hp
    · obtain ⟨p, hp⟩ := Option.ne_none_iff_exists'.mp hslot
      exact h.inside t .write rep.fd p hp
  obtain ⟨⟨base, ev⟩, hcollect⟩ := ebotLoopCollect_returns E.ev hcovers
  unfold collect
  rw [hcollect]
  exact ⟨_, rfl⟩

end Serviceable

/-! ## The pool and the sizes, in any run -/

/-- The list of the pool is split into free and busy slabs. -/
def PoolOrdered (E : EventState) : Prop :=
  2 ≤ E.pool.slab_num ∧ ∃ free busy, E.pool.Ordered free busy

/-- No wait table has grown. -/
def FirstSize (E : EventState) : Prop :=
  ∀ t, (E.base t).wait_sz = EP_SIZE

section Operations

variable {E E' : EventState} {t : Tid} {d : Dir} {e : SrvEvent} {ctl : Bool} {p : Nat}

theorem PoolOrdered.get
    {o : Option Nat} {pool : Mpool}
    (h : PoolOrdered E)
    (hget : mpoolGet E.pool = .ok (o, pool)) :
    2 ≤ pool.slab_num ∧ ∃ free busy, pool.Ordered free busy := by
  obtain ⟨hnum, free, busy, hpool⟩ := h
  obtain ⟨hpool', hnum', -⟩ := hpool.of_get hget
  exact ⟨hnum' ▸ hnum, hpool'⟩

theorem PoolOrdered.put
    (h : PoolOrdered E)
    (hput : E.put p = .ok E') :
    PoolOrdered E' := by
  obtain ⟨hnum, free, busy, hpool⟩ := h
  unfold EventState.put at hput
  obtain ⟨pool, hpoolPut, heq⟩ := bind_eq_ok.mp hput
  cases heq
  obtain ⟨hpool', hnum', -⟩ := hpool.of_put hpoolPut
  exact ⟨hnum' ▸ hnum, hpool'⟩

/-- One operation on the shared events. -/
theorem PoolOrdered.eventStep
    (h : PoolOrdered E)
    (hstep : EventStep E E') :
    PoolOrdered E' := by
  cases hstep with
  | same => exact h
  | got _ _ hget =>
      unfold getAdd at hget
      obtain ⟨⟨o, pool⟩, hget, hadd⟩ := bind_eq_ok.mp hget
      have hpool := h.get hget
      cases o with
      | none =>
          cases hadd
          exact hpool
      | some p =>
          obtain ⟨ev, -, hadd⟩ := bind_eq_ok.mp hadd
          obtain ⟨⟨ret, base⟩, -, hadd⟩ := bind_eq_ok.mp hadd
          cases hadd
          exact hpool
  | put hput => exact h.put hput
  | @deleted t _ _ _ _ hdel =>
      unfold delPut at hdel
      obtain ⟨o, -, hdel⟩ := bind_eq_ok.mp hdel
      cases o with
      | none =>
          cases hdel
          exact h
      | some p =>
          obtain ⟨⟨ret, base⟩, -, hput⟩ := bind_eq_ok.mp hdel
          have h' : PoolOrdered { E with base := update E.base t base } := h
          exact h'.put hput
  | collected hcollect =>
      unfold PoolOrdered
      rw [(collect_collected hcollect).pool]
      exact h
  | taken hnext =>
      unfold PoolOrdered
      rw [(next_some hnext).pool]
      exact h

/-- An add that may not read past the end of a table does not grow the tables. -/
theorem ebotAddEvent_wait_sz
    {κ α : Type} {eb eb' : EbotBase} {e : Event κ α} {ret : Int}
    (hadd : ebotAddEvent (.strict ctl) eb p e = .ok (ret, eb')) :
    eb'.wait_sz = eb.wait_sz := by
  unfold ebotAddEvent at hadd
  split at hadd
  · cases hadd
    rfl
  · obtain ⟨r, -, hadd⟩ := bind_eq_ok.mp hadd
    obtain ⟨w, -, hadd⟩ := bind_eq_ok.mp hadd
    dsimp only at hadd
    obtain ⟨eb₁, hgrow, hadd⟩ := bind_eq_ok.mp hadd
    cases growFor_strict hgrow
    split at hadd
    · cases hadd
      rfl
    · obtain ⟨rd, -, hadd⟩ := bind_eq_ok.mp hadd
      obtain ⟨wr, -, hadd⟩ := bind_eq_ok.mp hadd
      cases hadd
      rfl

theorem ebotDelEvent_wait_sz
    {κ α : Type} {eb eb' : EbotBase} {e : Event κ α} {ret : Int}
    (hdel : ebotDelEvent ctl eb e = .ok (ret, eb')) :
    eb'.wait_sz = eb.wait_sz := by
  unfold ebotDelEvent at hdel
  obtain ⟨w, -, hdel⟩ := bind_eq_ok.mp hdel
  obtain ⟨r, -, hdel⟩ := bind_eq_ok.mp hdel
  dsimp only at hdel
  split at hdel
  · cases hdel
    rfl
  · obtain ⟨rd, -, hdel⟩ := bind_eq_ok.mp hdel
    obtain ⟨wr, -, hdel⟩ := bind_eq_ok.mp hdel
    cases hdel
    rfl

/-- One base changes, and not in size. -/
theorem FirstSize.update
    {base : EbotBase}
    (h : FirstSize E)
    (hbase : E'.base = update E.base t base)
    (hsize : base.wait_sz = (E.base t).wait_sz) :
    FirstSize E' := by
  intro t'
  rw [hbase]
  by_cases ht : t' = t
  · subst ht
    rw [update_self, hsize]
    exact h t'
  · rw [update_of_ne ht]
    exact h t'

/-- One operation on the shared events. -/
theorem FirstSize.eventStep
    (h : FirstSize E)
    (hstep : EventStep E E') :
    FirstSize E' := by
  cases hstep with
  | same => exact h
  | @got t _ _ _ o _ _ _ hget =>
      cases o with
      | none => exact getAdd_none hget ▸ h
      | some o =>
          unfold getAdd at hget
          obtain ⟨⟨o, pool⟩, -, hget⟩ := bind_eq_ok.mp hget
          cases o with
          | none => cases hget
          | some p =>
              obtain ⟨ev, -, hget⟩ := bind_eq_ok.mp hget
              obtain ⟨⟨ret, base⟩, hadd, hget⟩ := bind_eq_ok.mp hget
              cases hget
              exact h.update rfl (ebotAddEvent_wait_sz hadd)
  | put hput =>
      intro t
      rw [(put_putBack hput).base]
      exact h t
  | deleted hdel =>
      unfold delPut at hdel
      obtain ⟨o, -, hdel⟩ := bind_eq_ok.mp hdel
      cases o with
      | none =>
          cases hdel
          exact h
      | some p =>
          obtain ⟨⟨ret, base⟩, hdel, hput⟩ := bind_eq_ok.mp hdel
          exact h.update (put_putBack hput).base (ebotDelEvent_wait_sz hdel)
  | collected hcollect =>
      unfold collect at hcollect
      obtain ⟨⟨base, ev⟩, hloop, hcollect⟩ := bind_eq_ok.mp hcollect
      cases hcollect
      obtain ⟨⟨new, hnew⟩, -⟩ := ebotLoopCollect_queues hloop
      exact h.update rfl (by rw [hnew.base])
  | @taken t p _ hnext =>
      unfold next dispatchNext at hnext
      cases hready : (E.base t).event_readies with
      | nil =>
          rw [hready] at hnext
          cases hnext
      | cons q rest =>
          rw [hready] at hnext
          cases hnext
          exact h.update rfl rfl

end Operations

section Runs

variable {cfg : Cfg} {s s' : Server} {a : Action} {good : Server → Action → Prop}

theorem poolOrdered_of_reach
    (hpsz : 2 ≤ cfg.psz)
    (hreach : Reach (step cfg) good (ebSrvNew cfg) s) :
    PoolOrdered s.events := by
  refine hreach.invariant (I := fun s => PoolOrdered s.events) ?_
    fun _ _ _ h _ hstep => h.eventStep (step_eventStep hstep)
  have hone : 1 ≤ cfg.psz := by omega
  refine ⟨?_, _, _, (mpoolNew_ordered sizeofEvent hone).1⟩
  change 2 ≤ (mpoolNew cfg.psz sizeofEvent).slab_num
  rw [(mpoolNew_spec sizeofEvent hone).2.1]
  exact hpsz

theorem firstSize_of_reach
    (hreach : Reach (step cfg) good (ebSrvNew cfg) s) :
    FirstSize s.events := by
  refine hreach.invariant (I := fun s => FirstSize s.events) ?_
    fun _ _ _ h _ hstep => h.eventStep (step_eventStep hstep)
  intro t
  cases t <;> rfl

end Runs

/-! ## Flags and descriptors -/

/-- An event whose flag is set is in a ready queue. -/
def FlagsQueued (E : EventState) : Prop :=
  ∀ p, (E.ev p).queued = true → ∃ t, p ∈ E.readies t

/-- What is registered is registered for a descriptor inside the first tables. -/
def SlotsInside (E : EventState) : Prop :=
  ∀ t d fd p, E.slot t d fd = some p → fd < EP_SIZE

/-- Accepted descriptors are inside them too. -/
def AcceptedInside (s : Server) : Prop :=
  ∀ fd, Accepted s.log fd → (fd : Nat) < EP_SIZE

section Events

variable {E E' : EventState} {t : Tid} {d : Dir} {e : SrvEvent} {p : Nat} {ret : Int}
variable {granted : Bool} {reports : List Report}

theorem FlagsQueued.opened
    (h : FlagsQueued E)
    (hop : Opened E t d e p ret E')
    (hunq : e.queued = false) :
    FlagsQueued E' := by
  intro q hq
  simp only [hop.readies]
  rw [hop.ev] at hq
  by_cases hqp : q = p
  · subst hqp
    rw [update_self, hunq] at hq
    cases hq
  · rw [update_of_ne hqp] at hq
    exact h q hq

/-- Operations that touch neither flags nor queues. -/
theorem FlagsQueued.same
    (h : FlagsQueued E)
    (hev : E'.ev = E.ev)
    (hready : ∀ t, E'.readies t = E.readies t) :
    FlagsQueued E' := by
  intro q hq
  simp only [hready]
  exact h q (hev ▸ hq)

theorem FlagsQueued.collected
    (h : FlagsQueued E)
    (hcol : Collected E t reports E') :
    FlagsQueued E' := by
  obtain ⟨new, -, hready, -, hflag⟩ := hcol.queue
  intro q hq
  rw [hflag, Bool.or_eq_true, decide_eq_true_eq] at hq
  rcases hq with hq | hq
  · exact ⟨t, hready ▸ List.mem_append_right _ hq⟩
  · obtain ⟨t', hmem⟩ := h q hq
    refine ⟨t', ?_⟩
    by_cases ht : t' = t
    · subst ht
      exact hready ▸ List.mem_append_left _ hmem
    · rw [hcol.other t' ht]
      exact hmem

theorem FlagsQueued.taken
    (h : FlagsQueued E)
    (htk : Taken E t p E') :
    FlagsQueued E' := by
  intro q hq
  rw [htk.queued, Bool.and_eq_true, decide_eq_true_eq] at hq
  obtain ⟨t', hmem⟩ := h q hq.2
  refine ⟨t', ?_⟩
  by_cases ht : t' = t
  · subst ht
    rw [htk.queue, List.mem_cons] at hmem
    exact hmem.resolve_left hq.1
  · rw [htk.other t' ht]
    exact hmem

theorem SlotsInside.opened
    (h : SlotsInside E)
    (hop : Opened E t d e p ret E')
    (hlt : (e.fd : Nat) < EP_SIZE) :
    SlotsInside E' := by
  intro t' d' fd' q hq
  rcases Tables.opened_slot hop hq with ⟨-, -, -, rfl, -⟩ | hold
  · exact hlt
  · exact h t' d' fd' q hold

/-- Operations that register nothing. -/
theorem SlotsInside.subset
    (h : SlotsInside E)
    (hsub : ∀ t d fd p, E'.slot t d fd = some p → E.slot t d fd = some p) :
    SlotsInside E' :=
  fun t d fd p hp => h t d fd p (hsub t d fd p hp)

end Events

section Steps

variable {cfg : Cfg} {s s' : Server} {a : Action} {t : Tid}

theorem bootEvent_fd : (bootEvent cfg t).fd = cfg.sourceFd t := by
  cases t <;> rfl

/-- One move. -/
theorem FlagsQueued.move
    (h : FlagsQueued s.events)
    (hmove : Move cfg s a s') :
    FlagsQueued s'.events := by
  cases hmove with
  | booted _ _ hop => exact h.opened hop bootEvent_unqueued
  | waited _ _ _ hcol => exact h.collected hcol
  | ignored _ _ htk => exact h.taken htk
  | started _ _ htk => exact h.taken htk
  | writable _ _ htk => exact h.taken htk
  | opened _ _ hop => exact h.opened hop rfl
  | openFailed _ _ hop => exact h.opened hop rfl
  | undone _ _ hput =>
      exact h.same hput.ev fun t => by simp [EventState.readies, hput.base]
  | closed _ _ _ hcl => exact h.same hcl.ev hcl.readies
  | _ => exact h

/-- One move of threads whose own descriptors are inside the tables. -/
theorem SlotsInside.move
    (h : SlotsInside s.events)
    (hsource : ∀ t, cfg.Runs t → (cfg.sourceFd t : Nat) < EP_SIZE)
    (hdesc : Descriptors cfg s)
    (haccepted : AcceptedInside s)
    (hmove : Move cfg s a s') :
    SlotsInside s'.events := by
  cases hmove with
  | @booted t _ _ _ hrun _ hop =>
      refine h.opened hop ?_
      rw [bootEvent_fd]
      exact hsource t hrun
  | waited _ _ _ hcol => exact h.subset fun t d fd p hp => hcol.slot t d fd ▸ hp
  | ignored _ _ htk => exact h.subset fun t d fd p hp => htk.slot t d fd ▸ hp
  | started _ _ htk => exact h.subset fun t d fd p hp => htk.slot t d fd ▸ hp
  | writable _ _ htk => exact h.subset fun t d fd p hp => htk.slot t d fd ▸ hp
  | opened _ hpc hop => exact h.opened hop (haccepted _ (hdesc.at_connection hpc rfl))
  | openFailed _ hpc hop => exact h.opened hop (haccepted _ (hdesc.at_connection hpc rfl))
  | undone _ _ hput =>
      refine h.subset fun t d fd p hp => ?_
      simpa [EventState.slot, hput.base] using hp
  | closed _ _ _ hcl => exact h.subset hcl.subset
  | _ => exact h

/-- One move that accepts a descriptor inside the tables, if any. -/
theorem AcceptedInside.move
    (h : AcceptedInside s)
    (hgood : AcceptsInside s a)
    (hmove : Move cfg s a s') :
    AcceptedInside s' := by
  have hkeep : ∀ {notes}, s'.log = s.log ++ notes → (∀ fd, Note.accepted fd ∉ notes) →
      AcceptedInside s' := by
    intro notes hlog hnotes fd hacc
    unfold Accepted at hacc
    rw [hlog, List.mem_append] at hacc
    exact h fd (hacc.resolve_right (hnotes fd))
  have hcallback : ∀ {c e stream fd}, Note.accepted fd ∉ callback cfg c e stream := by
    intro c e stream fd hmem
    cases eq_called_of_mem_callback hmem
  cases hmove with
  | @accepted t env fd rest _ hpc hfd =>
      intro fd' hacc
      rcases List.mem_append.mp hacc with hacc | hacc
      · exact h fd' hacc
      · cases List.mem_singleton.mp hacc
        exact hgood hpc fd hfd
  | writable => exact hkeep rfl fun _ => hcallback
  | announced => exact hkeep rfl fun _ => hcallback
  | rejected => exact hkeep rfl (by simp)
  | received => exact hkeep rfl (by simp)
  | refused => exact hkeep rfl (by simp)
  | pushed => exact hkeep rfl (by simp)
  | handled =>
      refine hkeep rfl fun fd hmem => ?_
      rcases List.mem_cons.mp hmem with he | hmem
      · cases he
      · exact hcallback hmem
  | _ => exact h

/-- While the close path removes only what is not queued, no event in a free slab is
queued: a queued one is registered, so its slab is handed out. -/
theorem unqueued_of_free
    {p : Nat}
    (hreach : Reach (step cfg) ClosesUnqueued (ebSrvNew cfg) s)
    (hp : s.events.used p = false) :
    (s.events.ev p).queued = false := by
  have hflags : FlagsQueued s.events :=
    hreach.invariant (I := fun s => FlagsQueued s.events) nofun
      fun _ _ _ h _ hstep => h.move (step_move hstep)
  have horderly := orderly_of_reach (fun _ _ h => h.1) hreach
  cases hq : (s.events.ev p).queued with
  | false => rfl
  | true =>
      obtain ⟨t, hmem⟩ := hflags p hq
      obtain ⟨d, fd, hslot⟩ := readyRegistered_of_reach hreach t p hmem
      rw [horderly.tables.used t d fd p hslot] at hp
      cases hp

/-- What every state of a tame run offers. -/
structure Sound (cfg : Cfg) (s : Server) : Prop where
  regular : Regular cfg s
  usable : Serviceable s.events
  delivers : Delivers cfg s
  accepted : AcceptedInside s
  counted : Counted s
  limit : OneOverLimit cfg s

theorem sound_of_reach
    (hcfg : cfg.Fits)
    (hreach : Reach (step cfg) Tame (ebSrvNew cfg) s) :
    Sound cfg s := by
  have hclosing : Reach (step cfg) ClosesUnqueued (ebSrvNew cfg) s :=
    hreach.mono fun _ _ h => h.1
  have hregular : Regular cfg s := regular_of_reach (hclosing.mono fun _ _ h => h.1)
  have haccepted : AcceptedInside s :=
    hreach.invariant nofun fun _ _ _ h hgood hstep => h.move hgood.2 (step_move hstep)
  have hinside : SlotsInside s.events := by
    refine hreach.invariant_of (J := fun s => Descriptors cfg s ∧ AcceptedInside s)
      (I := fun s => SlotsInside s.events) (fun s hr => ⟨descriptors_of_reach hr,
        hr.invariant nofun fun _ _ _ h hgood hstep => h.move hgood.2 (step_move hstep)⟩)
      ?_ ?_
    · intro t d fd p hp
      cases t <;> cases d <;> cases hp
    · rintro s a s' ⟨hdesc, hacc⟩ - h - hstep
      exact h.move hcfg.source hdesc hacc (step_move hstep)
  obtain ⟨hnum, hpool⟩ := poolOrdered_of_reach hcfg.psz hreach
  have hpooled := pooled_of_reach hreach
  refine ⟨hregular, ⟨hpool, hnum, fun p hp => ?_, hregular.orderly.tables, hregular.bases,
    firstSize_of_reach hreach, hinside, fun p => unqueued_of_free hclosing⟩,
    delivers_of_reach hreach, haccepted, counted_of_reach hreach,
    oneOverLimit_of_reach hcfg.limit.1 hreach⟩
  rw [hpooled.num]
  exact hpooled.inside p hp

end Steps

/-! ## Each step returns -/

section Packets

variable {cap : Nat} {rq : Ringq} {ds : List PackData}

theorem PackRing.push_returns
    (hcap : CapInRange cap)
    (h : PackRing cap rq ds)
    (d : PackData) :
    ∃ o, pushPack rq d = .ok o := by
  obtain ⟨_, hold⟩ := h.reach.holds hcap
  have hsize : PackData.size ≤ (Block.ofList d.bytes).size := by simp
  have hint : InInt (4 + (PackData.size : Nat)) := by decide
  obtain ⟨rq', hpush, -⟩ := hold.push hcap hsize hint
  unfold pushPack ringqPushWithLock
  rw [if_neg h.lock]
  exact ⟨_, hpush⟩

theorem PackRing.pop_returns
    (hcap : CapInRange cap)
    (h : PackRing cap rq ds)
    (stack : Nat → UInt8) :
    ∃ o, popPack rq stack = .ok o := by
  obtain ⟨_, hold⟩ := h.reach.holds hcap
  unfold popPack ringqPopWithLock
  rw [if_neg h.lock]
  cases ds with
  | nil =>
      rw [ringqPop_nil hold]
      exact ⟨_, rfl⟩
  | cons d ds =>
      have hlen : d.bytes.length = PackData.size := d.bytes_length
      obtain ⟨item', hpop, -⟩ := ringqPop_cons ⟨PackData.size, stack, []⟩ hcap hold
        (Nat.le_of_eq hlen)
      rw [hlen] at hpop
      rw [hpop]
      exact ⟨_, rfl⟩

end Packets

section Threads

variable {cfg : Cfg} {s : Server} {t : Tid} {env : Env}

/-- The start of a thread succeeds only with a slab and the kernel's consent. -/
theorem reactorPoolExec_needs
    {s' : Server}
    (h : reactorPoolExec cfg s t env.ctl = .ok s') :
    SlabLeft s.events ∧ env.ctl = true := by
  unfold reactorPoolExec at h
  obtain ⟨⟨o, events⟩, hget, h⟩ := bind_eq_ok.mp h
  cases o with
  | none => cases h
  | some o =>
      obtain ⟨p, ret⟩ := o
      refine ⟨slabLeft_of_getAdd hget, ?_⟩
      dsimp only at h
      split at h
      · cases h
      · rename_i hret
        exact ebotAddEvent_granted (ebotAddEvent_of_getAdd hget) hret

/-- The start of a thread. -/
theorem Sound.boot
    (h : Sound cfg s)
    (env : Env)
    (hcfg : cfg.Fits)
    (hrun : cfg.Runs t) :
    (∃ s', reactorPoolExec cfg s t env.ctl = .ok s') ∨
      ¬ SlabLeft s.events ∧ reactorPoolExec cfg s t env.ctl = .error (bootNull t) ∨
      env.ctl = false ∧ reactorPoolExec cfg s t env.ctl = .error (bootAddFail cfg t) := by
  have hsup : (s.events.base t).Supports (bootEvent cfg t) := by
    unfold EbotBase.Supports
    rw [h.usable.bases.kides]
    cases t with
    | master => exact .inl ⟨rfl, rfl⟩
    | reactor i => exact .inl ⟨rfl, rfl⟩
  have hlt : ((bootEvent cfg t).fd : Nat) < EP_SIZE := by
    rw [bootEvent_fd]
    exact hcfg.source t hrun
  unfold reactorPoolExec
  rcases h.usable.getAdd_returns env.ctl bootEvent_isFor hsup hlt with
    ⟨hleft, hget⟩ | ⟨p, ret, E', hget, hret⟩
  · right
    left
    refine ⟨hleft, ?_⟩
    rw [hget]
    rfl
  · rw [hget]
    by_cases hneg : ret < 0
    · right
      right
      refine ⟨?_, if_pos hneg⟩
      cases hctl : env.ctl with
      | false => rfl
      | true =>
          have hzero := hret hctl
          omega
    · exact .inl ⟨_, if_neg hneg⟩

/-- A round of the dispatch loop: the events in the slabs are those the threads
fill in. -/
theorem Sound.dispatch
    (h : Sound cfg s) :
    ∃ s', dispatchEvents cfg s t = .ok s' := by
  unfold dispatchEvents
  cases hnext : s.events.next t with
  | none => exact ⟨_, rfl⟩
  | some o =>
      obtain ⟨p, events⟩ := o
      have htk := next_some hnext
      have hproper := (h.regular.desc.ev p).agrees (htk.content.agrees (p := p))
      dsimp only
      cases hcb : (events.ev p).callback with
      | none => exact ⟨_, rfl⟩
      | some cb =>
          have hcb' := Event.cb_of_callback hcb
          rcases hproper with hnone | ⟨t', hboot⟩ | ⟨d, fd, -, hclient⟩
          · rw [hnone] at hcb'
            cases hcb'
          · have harg := hboot.arg
            have hcb'' := hboot.cb.symm.trans hcb'
            cases t' with
            | master =>
                cases hcb''
                rw [harg]
                exact ⟨_, rfl⟩
            | reactor i =>
                cases hcb''
                rw [harg]
                exact ⟨_, rfl⟩
          · have harg := hclient.arg
            have hcb'' := hclient.cb.symm.trans hcb'
            cases d with
            | read =>
                cases hcb''
                rw [harg]
                exact ⟨_, rfl⟩
            | write =>
                cases hcb''
                rw [harg]
                exact ⟨_, rfl⟩

/-- `ebot_srv_accept` with an answer the surroundings can give. -/
theorem ebotSrvAccept_returns
    (hanswer : ∀ fd ∈ env.accepted, s.backlog.items ≠ [] ∧ s.isOpen fd = false) :
    ∃ s', ebotSrvAccept cfg s t env.accepted = .ok s' := by
  unfold ebotSrvAccept
  cases hacc : env.accepted with
  | none => exact ⟨_, rfl⟩
  | some fd =>
      obtain ⟨hitems, hopen⟩ := hanswer fd hacc
      cases hbacklog : s.backlog.items with
      | nil => exact absurd hbacklog hitems
      | cons x rest =>
          have hreq : require (s.isOpen fd = false) = .ok () := require_eq_ok.mpr hopen
          simp only [hreq, ok_bind]
          split
          · exact ⟨_, rfl⟩
          · exact ⟨_, rfl⟩

/-- `total_conns++` does not overflow. -/
theorem Sound.count
    (h : Sound cfg s)
    (hcfg : cfg.Fits)
    (hpc : s.pc t = .count) :
    ∃ s', acceptCount s t = .ok s' := by
  obtain rfl := h.regular.alone.eq_master hpc rfl
  have htotal := h.counted.succ_eq_length (by rw [hpc]; rfl)
  have hlimit := h.limit
  have hmax := hcfg.limit.2
  unfold OneOverLimit at hlimit
  unfold acceptCount
  rw [if_neg (by omega)]
  exact ⟨_, rfl⟩

/-- One half of the pipe callback. -/
theorem Sound.opening
    {d : Dir} {i : Nat} {fd : Fd} {ctl : Bool}
    (h : Sound cfg s)
    (hpc : s.pc t = .opening d i fd) :
    ∃ s', pipeCallbackOpen s t d i fd ctl = .ok s' := by
  have hlt := h.accepted fd (h.regular.desc.at_connection hpc rfl)
  unfold pipeCallbackOpen
  rcases h.usable.getAdd_returns ctl clientEvent_isFor
    (h.regular.bases.supports (i := i) (d := d)) hlt with
    ⟨-, hget⟩ | ⟨p, ret, E', hget, -⟩
  · rw [hget]
    exact ⟨_, rfl⟩
  · rw [hget]
    exact ⟨_, rfl⟩

/-- A push into a ring of the factory. -/
theorem Sound.pushing
    (h : Sound cfg s)
    (fd : Fd) (n : Int) (d : PackData) :
    ∃ s', clientReadPush cfg s t fd n d = .ok s' := by
  obtain ⟨pending, hring, -⟩ := h.delivers.rings (cfg.unitOf fd)
  obtain ⟨⟨ret, rq⟩, hpush⟩ := hring.push_returns capInRange_ringCap d
  unfold clientReadPush
  dsimp only
  rw [hpush, ok_bind]
  dsimp only
  split
  · exact ⟨_, rfl⟩
  · exact ⟨_, rfl⟩

/-- The next step of a thread. -/
theorem Sound.thread
    (h : Sound cfg s)
    (hcfg : cfg.Fits)
    (hrun : cfg.Runs t)
    (hidle : s.pc t ≠ .idle)
    (hanswer : s.pc t = .accept → ∀ fd ∈ env.accepted,
      s.backlog.items ≠ [] ∧ s.isOpen fd = false) :
    (∃ s', runThread cfg s t env = .ok s') ∨
      s.pc t = .boot ∧
        (¬ SlabLeft s.events ∧ runThread cfg s t env = .error (bootNull t) ∨
          env.ctl = false ∧ runThread cfg s t env = .error (bootAddFail cfg t)) := by
  unfold runThread
  cases hpc : s.pc t with
  | boot =>
      rcases h.boot env hcfg hrun with hok | hfail
      · exact .inl hok
      · exact .inr ⟨rfl, hfail⟩
  | idle => exact absurd hpc hidle
  | dispatch => exact .inl h.dispatch
  | accept => exact .inl (ebotSrvAccept_returns (hanswer hpc))
  | handOff fd => exact .inl ⟨_, rfl⟩
  | announce fd => exact .inl ⟨_, rfl⟩
  | count => exact .inl (h.count hcfg hpc)
  | pipeRead i => exact .inl ⟨_, rfl⟩
  | opening d i fd => exact .inl (h.opening hpc)
  | undoing d i fd p =>
      have hused := (h.regular.orderly.held t p (by rw [hpc]; rfl)).used
      obtain ⟨E', hput⟩ := h.usable.put_returns hused
      refine .inl ?_
      dsimp only [pipeCallbackUndo]
      rw [hput]
      exact ⟨_, rfl⟩
  | recv i fd => exact .inl ⟨_, rfl⟩
  | closing d i fd =>
      have hlt := h.accepted fd (h.regular.desc.at_connection hpc rfl)
      obtain ⟨E', hdel⟩ := h.usable.delPut_returns (.reactor i) d env.ctl hlt
      refine .inl ?_
      dsimp only [clientReadClose]
      rw [hdel]
      exact ⟨_, rfl⟩
  | pushing fd n d => exact .inl (h.pushing fd n d)
  | notify u => exact .inl ⟨_, rfl⟩

/-- The return of `epoll_wait`. -/
theorem Sound.wait
    {reports : List Report}
    (h : Sound cfg s)
    (hpossible : Possible cfg s (.wait t reports)) :
    Returns cfg s (.wait t reports) := by
  obtain ⟨hrun, hpc, hlen, hnodup, hmay⟩ := hpossible
  have hwatched : ∀ rep ∈ reports, s.events.watched t rep.fd := by
    intro rep hmem hnone
    have hallowed := hmay rep hmem
    unfold mayReport at hallowed
    rw [hnone] at hallowed
    cases hallowed
  obtain ⟨E', hcollect⟩ := h.usable.collect_returns hwatched
  have hall : reports.all (mayReport cfg s t) = true := List.all_eq_true.mpr hmay
  have hreq : ∀ {P : Prop} [Decidable P], P → require P = .ok () :=
    fun hp => require_eq_ok.mpr hp
  unfold Returns
  simp only [step, ebotLoop, hreq hrun, hreq hpc, hreq hlen, hreq hnodup, hreq hall, hcollect,
    ok_bind]
  exact ⟨_, rfl⟩

/-- The handler of a unit whose worker is not asleep, or is woken. -/
theorem Delivers.work_returns
    {u : Nat}
    (stack : Nat → UInt8)
    (h : Delivers cfg s)
    (hu : u < cfg.num)
    (hwake : (s.units u).waiting = true → 0 < (s.units u).efd) :
    Returns cfg s (.work u stack) := by
  have hreq : require (u < cfg.num) = .ok () := require_eq_ok.mpr hu
  unfold Returns
  simp only [step, hreq, ok_bind]
  unfold ebSrvFactoryExec
  dsimp only
  cases hwaiting : (s.units u).waiting with
  | true =>
      have hefd : require (0 < (s.units u).efd) = .ok () := require_eq_ok.mpr (hwake hwaiting)
      rw [if_pos rfl, hefd]
      exact ⟨_, rfl⟩
  | false =>
      rw [if_neg (by simp)]
      obtain ⟨pending, hring, -⟩ := h.rings u
      obtain ⟨⟨ret, rq, d⟩, hpop⟩ := hring.pop_returns capInRange_ringCap stack
      rw [hpop, ok_bind]
      dsimp only
      split
      · rename_i hret
        rcases h.popped hpop with ⟨rfl, -⟩ | ⟨fd, n, _, -, -, ⟨r, -, rfl⟩, -⟩
        · exact absurd hret (by decide)
        · obtain ⟨stream, hstream, -⟩ := streamOf_content cfg.udata (packed_len_bounds fd r)
          rw [hstream]
          exact ⟨_, rfl⟩
      · exact ⟨_, rfl⟩

/-- What the surroundings allow returns, or is a thread that fails to start. -/
theorem Sound.returns
    {a : Action}
    (h : Sound cfg s)
    (hcfg : cfg.Fits)
    (hpossible : Possible cfg s a) :
    Returns cfg s a ∨ FailsToStart cfg s a := by
  cases a with
  | arrive => exact .inl ⟨_, rfl⟩
  | wait t reports => exact .inl (h.wait hpossible)
  | run t env =>
      obtain ⟨hrun, hidle, hanswer⟩ := hpossible
      have hreq : require (cfg.Runs t) = .ok () := require_eq_ok.mpr hrun
      have hstep : step cfg s (.run t env) = runThread cfg s t env := by
        simp only [step, hreq, ok_bind]
      unfold Returns FailsToStart
      rw [hstep]
      rcases h.thread hcfg hrun hidle hanswer with hok | ⟨hpc, hfail⟩
      · exact .inl hok
      · exact .inr ⟨t, env, rfl, hpc, hstep ▸ hfail⟩
  | work u stack => exact .inl (h.delivers.work_returns stack hpossible.1 hpossible.2)

end Threads

/-- **No step is undefined.**  In every tame run of a server that fits, whatever
the surroundings allow next returns; no thread and no worker stops in the middle
of a step, but for the two ways in which a thread may fail to start.  A thread
starts exactly when a slab is left for its event and the kernel adds it. -/
theorem possible_moves_return
    {cfg : Cfg} {s : Server} {a : Action}
    (hcfg : cfg.Fits)
    (hreach : Reach (step cfg) Tame (ebSrvNew cfg) s)
    (hpossible : Possible cfg s a) :
    (Returns cfg s a ∨ FailsToStart cfg s a) ∧
      ∀ t env, a = .run t env → s.pc t = .boot →
        (Returns cfg s a ↔ SlabLeft s.events ∧ env.ctl = true) := by
  have hreturns := (sound_of_reach hcfg hreach).returns hcfg hpossible
  refine ⟨hreturns, ?_⟩
  rintro t env rfl hpc
  constructor
  · rintro ⟨s', hstep⟩
    obtain ⟨_, -, hrun⟩ := bind_eq_ok.mp hstep
    rw [runThread, hpc] at hrun
    exact reactorPoolExec_needs hrun
  · rintro ⟨hleft, hctl⟩
    rcases hreturns with hok | ⟨t', env', he, -, ⟨hnone, -⟩ | ⟨hrefused, -⟩⟩
    · exact hok
    · exact absurd hleft hnone
    · cases he
      rw [hctl] at hrefused
      cases hrefused

theorem Small.cfg_fits : Small.cfg.Fits where
  psz := by decide
  source := by
    intro t _
    cases t with
    | master => decide
    | reactor i => exact (by decide : ((4 : Fd) : Nat) < EP_SIZE)
  limit := by decide

/-- A client is admitted, sends a byte and closes, and the worker can run; at the
very beginning the master starts exactly when the kernel adds its event. -/
theorem possible_moves_return_one_client :
    (∃ s, Reach (step Small.cfg) Tame Small.start s ∧ s.log.length = 6 ∧
        (Returns Small.cfg s Small.worker ∨ FailsToStart Small.cfg s Small.worker)) ∧
      (Returns Small.cfg Small.start Small.master ↔
        SlabLeft Small.start.events ∧ Small.env.ctl = true) := by
  obtain ⟨s, hreach, hcheck⟩ := reach_of_endsIn (step Small.cfg) Tame Small.start .disabled
    (Small.boot ++ Small.client 7 ++ Small.chunk 7 ++ Small.peerClose 7)
    (fun s => decide (s.log.length = 6) && decide ((s.units 0).waiting = false))
    (by decide +kernel)
  simp only [Bool.and_eq_true, decide_eq_true_eq] at hcheck
  have hworker : Possible Small.cfg s Small.worker :=
    ⟨by decide, fun hwaiting => by rw [hcheck.2] at hwaiting; cases hwaiting⟩
  have hmaster : Possible Small.cfg Small.start Small.master :=
    ⟨trivial, by decide, by decide⟩
  exact ⟨⟨s, hreach, hcheck.1, (possible_moves_return Small.cfg_fits hreach hworker).1⟩,
    (possible_moves_return Small.cfg_fits .start hmaster).2 _ _ rfl rfl⟩

end Ebot
