import Ebot.Closing

/-!
# What a connection leaves behind

Setting up a connection raises `total_conns` and opens a descriptor.  No code
lowers `total_conns` or closes the descriptor again, so of all sequences of
connections that are accepted, used and closed by their peers only the empty one
restores the resources of the server.
-/

namespace Ebot

open Function EdgeSource EventState Transition

/-- Descriptors of the connections accepted, in order. -/
def acceptedOf (log : List Note) : List Fd :=
  log.filterMap fun
    | .accepted fd => some fd
    | _ => none

/-- Descriptors on which the close of the peer was seen, in order. -/
def closedOf (log : List Note) : List Fd :=
  log.filterMap fun
    | .received fd n _ => if n = -2 then some fd else none
    | _ => none

theorem closeSeen_iff_mem
    {fd : Fd} {log : List Note} :
    closeSeen fd log = true ↔ fd ∈ closedOf log := by
  rw [closeSeen_iff, closedOf, List.mem_filterMap]
  constructor
  · rintro ⟨d, hx⟩
    exact ⟨_, hx, rfl⟩
  · rintro ⟨x, hx, h⟩
    cases x with
    | received fd' n d =>
        simp only [Option.ite_none_right_eq_some, Option.some.injEq] at h
        obtain ⟨rfl, rfl⟩ := h
        exact ⟨d, hx⟩
    | _ => cases h

/-- All threads are before their `epoll_wait` and nothing is under way. -/
def Quiescent (cfg : Cfg) (s : Server) : Prop :=
  (∀ t, cfg.Runs t → s.pc t = .idle ∧ s.events.readies t = []) ∧
  (∀ i, i < cfg.rsz → (s.pipe i).items = []) ∧
  s.backlog.items = [] ∧
  ∀ u, u < cfg.num → (s.units u).rq.num = 0

instance (cfg : Cfg) (s : Server) : Decidable (Quiescent cfg s) := by
  dsimp only [Quiescent]
  infer_instance

/-- The resources of the server are the same. -/
structure SameResources (s s' : Server) : Prop where
  total_conns : s'.total_conns = s.total_conns
  slab_used : s'.events.pool.slab_used = s.events.pool.slab_used
  waits : ∀ t d fd, s'.events.slot t d fd = s.events.slot t d fd
  isOpen : s'.isOpen = s.isOpen

/-- What happened while the connections `cs`, and no others, were accepted, used
and closed by their peers, up to the `EB_CLOSE` of each. -/
structure ServedAndClosed (cs : List Fd) (notes : List Note) : Prop where
  accepted : acceptedOf notes = cs
  closed : ∀ fd, closeSeen fd notes = true ↔ fd ∈ cs
  delivered : ∀ fd ∈ cs, ClosedFor fd notes

/-! ## The count of connections -/

/-- The master has accepted a connection and not yet counted it. -/
def Pc.uncounted : Pc → Bool
  | .handOff _ | .announce _ | .count => true
  | .boot | .idle | .dispatch | .accept | .pipeRead _ | .opening _ _ _
  | .undoing _ _ _ _ | .recv _ _ | .closing _ _ _ | .pushing _ _ _ | .notify _ => false

/-- `total_conns` counts the connections ever accepted. -/
def Counted (s : Server) : Prop :=
  s.total_conns + (if (s.pc .master).uncounted then 1 else 0) =
    (acceptedOf s.log).length

section Count

variable {cfg : Cfg} {s s' : Server} {a : Action} {t : Tid}
variable {log notes : List Note}

theorem acceptedOf_append :
    acceptedOf (log ++ notes) = acceptedOf log ++ acceptedOf notes :=
  List.filterMap_append

theorem mem_acceptedOf
    {fd : Fd} :
    fd ∈ acceptedOf log ↔ Accepted log fd := by
  unfold acceptedOf Accepted
  rw [List.mem_filterMap]
  constructor
  · rintro ⟨x, hx, hfd⟩
    cases x with
    | accepted fd' =>
        cases hfd
        exact hx
    | _ => cases hfd
  · intro hx
    exact ⟨_, hx, rfl⟩

theorem acceptedOf_callback
    {c : Caller} {e : EbEvent} {stream : EbStream} :
    acceptedOf (callback cfg c e stream) = [] := by
  unfold callback
  split <;> rfl

/-- Steps that neither accept nor count. -/
theorem Counted.keep
    (h : Counted s)
    (htotal : s'.total_conns = s.total_conns)
    (hpc : (s'.pc .master).uncounted = (s.pc .master).uncounted)
    (haccepted : acceptedOf s'.log = acceptedOf s.log) :
    Counted s' := by
  unfold Counted
  rw [htotal, hpc, haccepted]
  exact h

theorem Pc.counted_start
    {fd : Fd} {cb : Callback} {arg : Arg} {pc : Pc}
    (h : Pc.start fd cb arg = some pc) :
    pc.uncounted = false := by
  cases cb <;> cases arg <;> cases h <;> rfl

theorem Pc.counted_received
    {i : Nat} {fd : Fd} {r : RecvResult} :
    (Pc.received i fd r).uncounted = false := by
  rcases Pc.received_cases i fd r with ⟨-, h⟩ | ⟨-, h⟩ | ⟨-, -, h⟩ <;> rw [h] <;> rfl

/-- One move. -/
theorem Counted.move
    (h : Counted s)
    (halone : MasterAlone cfg s)
    (hmove : Move cfg s a s') :
    Counted s' := by
  have hgoto : ∀ {s₁ : Server} {t pc₀ pc}, s.pc t = pc₀ → s₁.pc = s.pc →
      pc.uncounted = pc₀.uncounted →
      ((s₁.goto t pc).pc .master).uncounted = (s.pc .master).uncounted :=
    Server.apply_pc_goto Pc.uncounted .master
  have hnote : ∀ {notes}, acceptedOf notes = [] →
      acceptedOf (s.log ++ notes) = acceptedOf s.log := by
    intro notes hnotes
    rw [acceptedOf_append, hnotes, List.append_nil]
  cases hmove with
  | arrived => exact h
  | booted _ hpc => exact h.keep rfl (hgoto hpc rfl rfl) rfl
  | waited _ hpc => exact h.keep rfl (hgoto hpc rfl rfl) rfl
  | drained _ hpc => exact h.keep rfl (hgoto hpc rfl rfl) rfl
  | ignored => exact h
  | writable => exact h.keep rfl rfl (hnote acceptedOf_callback)
  | started _ hpc _ _ hstart =>
      exact h.keep rfl (hgoto hpc rfl (Pc.counted_start hstart)) rfl
  | acceptFailed _ hpc => exact h.keep rfl (hgoto hpc rfl rfl) rfl
  | rejected _ hpc => exact h.keep rfl (hgoto hpc rfl rfl) (hnote rfl)
  | @accepted t _ fd _ _ hpc =>
      obtain rfl := halone.eq_master hpc rfl
      unfold Counted at h ⊢
      have hlast : acceptedOf [.accepted fd] = [fd] := rfl
      have hold : (s.pc .master).uncounted = false := by rw [hpc]; rfl
      have hnew : (Pc.handOff fd).uncounted = true := rfl
      rw [hold, if_neg (by simp)] at h
      rw [Server.goto_pc_self, hnew, if_pos rfl, Server.goto_log, Server.note_log,
        acceptedOf_append, hlast, List.length_append, Server.goto_total_conns,
        Server.note_total_conns, List.length_singleton]
      push_cast
      omega
  | handedOff _ hpc => exact h.keep rfl (hgoto hpc rfl rfl) rfl
  | handOffFailed _ hpc => exact h.keep rfl (hgoto hpc rfl rfl) rfl
  | announced _ hpc => exact h.keep rfl (hgoto hpc rfl rfl) (hnote acceptedOf_callback)
  | counted _ hpc =>
      obtain rfl := halone.eq_master hpc rfl
      unfold Counted at h ⊢
      have hold : (s.pc .master).uncounted = true := by rw [hpc]; rfl
      have hnew : Pc.dispatch.uncounted = false := rfl
      rw [hold, if_pos rfl] at h
      rw [Server.goto_pc_self, hnew, if_neg (by simp)]
      dsimp only [Server.goto]
      omega
  | pipeEmpty _ hpc => exact h.keep rfl (hgoto hpc rfl rfl) rfl
  | pipeTaken _ hpc => exact h.keep rfl (hgoto hpc rfl rfl) rfl
  | exhausted _ hpc => exact h.keep rfl (hgoto hpc rfl rfl) rfl
  | @opened _ _ d _ _ _ _ _ hpc =>
      exact h.keep rfl (hgoto hpc rfl (by cases d <;> rfl)) rfl
  | openFailed _ hpc => exact h.keep rfl (hgoto hpc rfl rfl) rfl
  | @undone _ _ d _ _ _ _ _ hpc =>
      exact h.keep rfl (hgoto hpc rfl (by cases d <;> rfl)) rfl
  | received _ hpc => exact h.keep rfl (hgoto hpc rfl Pc.counted_received) (hnote rfl)
  | @closedNone _ _ d _ _ _ hpc =>
      exact h.keep rfl (hgoto hpc rfl (by cases d <;> rfl)) rfl
  | @closed _ _ d _ _ _ _ _ _ hpc =>
      exact h.keep rfl (hgoto hpc rfl (by cases d <;> rfl)) rfl
  | refused _ hpc => exact h.keep rfl (hgoto hpc rfl rfl) (hnote rfl)
  | pushed _ hpc => exact h.keep rfl (hgoto hpc rfl rfl) (hnote rfl)
  | notified _ hpc => exact h.keep rfl (hgoto hpc rfl rfl) rfl
  | woke => exact h
  | handled => exact h.keep rfl rfl (hnote acceptedOf_callback)
  | emptied => exact h

theorem counted_of_reach
    {good : Server → Action → Prop}
    (hreach : Reach (step cfg) good (ebSrvNew cfg) s) :
    Counted s := by
  refine hreach.invariant_of (J := MasterAlone cfg)
    (fun s hr => masterAlone_of_reach hr) rfl ?_
  intro s a s' halone _ h _ hstep
  exact h.move halone (step_move hstep)

/-- While nothing is under way `total_conns` is the number of connections ever
accepted. -/
theorem Quiescent.total_conns
    (hq : Quiescent cfg s)
    (hreach : Reachable (step cfg) (ebSrvNew cfg) s) :
    s.total_conns = (acceptedOf s.log).length := by
  have h := counted_of_reach hreach
  unfold Counted at h
  have hpc := (hq.1 .master trivial).1
  have hcounted : (s.pc .master).uncounted = false := by rw [hpc]; rfl
  rw [hcounted, if_neg (by simp)] at h
  omega

end Count

/-! ## Runs without connections -/

/-- A thread may be here while no connection is set up or torn down. -/
def Pc.calm : Pc → Bool
  | .idle | .dispatch | .accept | .pipeRead _ | .recv _ _ | .pushing _ _ _
  | .notify _ => true
  | .boot | .handOff _ | .announce _ | .count | .opening _ _ _ | .undoing _ _ _ _
  | .closing _ _ _ => false

/-- The resources are those of `s₀`, and no thread is about to change them. -/
structure Calm (cfg : Cfg) (s₀ s : Server) : Prop where
  same : SameResources s₀ s
  pcs : ∀ t, cfg.Runs t → (s.pc t).calm = true
  pipe : ∀ i, (s.pipe i).items = []

section Calmness

variable {cfg : Cfg} {s₀ s s' : Server} {a : Action} {notes : List Note}

theorem Quiescent.calm
    (hq : Quiescent cfg s)
    (hdesc : Descriptors cfg s) :
    Calm cfg s s := by
  refine ⟨⟨rfl, rfl, fun _ _ _ => rfl, rfl⟩, fun t ht => ?_, fun i => ?_⟩
  · rw [(hq.1 t ht).1]
    rfl
  · by_cases hi : i < cfg.rsz
    · exact hq.2.1 i hi
    · rw [List.eq_nil_iff_forall_not_mem]
      intro fd hfd
      obtain ⟨-, rfl⟩ := hdesc.pipe i fd hfd
      exact hi (Nat.mod_lt _ (orFour_pos _))

/-- Steps that touch no resource. -/
theorem Calm.keep
    (h : Calm cfg s₀ s)
    (htotal : s'.total_conns = s.total_conns)
    (hpool : s'.events.pool = s.events.pool)
    (hslot : ∀ t d fd, s'.events.slot t d fd = s.events.slot t d fd)
    (hopen : s'.isOpen = s.isOpen)
    (hpcs : ∀ t, cfg.Runs t → (s'.pc t).calm = true)
    (hpipe : ∀ i, (s'.pipe i).items = (s.pipe i).items) :
    Calm cfg s₀ s' := by
  refine ⟨⟨htotal.trans h.same.total_conns, ?_, ?_, hopen.trans h.same.isOpen⟩, hpcs, ?_⟩
  · rw [hpool]
    exact h.same.slab_used
  · intro t d fd
    exact (hslot t d fd).trans (h.same.waits t d fd)
  · intro i
    exact (hpipe i).trans (h.pipe i)

theorem Pc.calm_start
    {fd : Fd} {cb : Callback} {arg : Arg} {pc : Pc}
    (h : Pc.start fd cb arg = some pc) :
    pc.calm = true := by
  cases cb <;> cases arg <;> cases h <;> rfl

/-- One move that accepts nothing and sees no close. -/
theorem Calm.move
    (h : Calm cfg s₀ s)
    (hmove : Move cfg s a s')
    (hlog : s'.log = s.log ++ notes)
    (haccepted : acceptedOf notes = [])
    (hclosed : ∀ fd, closeSeen fd notes = false) :
    Calm cfg s₀ s' := by
  have hslot : ∀ t d fd, s.events.slot t d fd = s.events.slot t d fd := fun _ _ _ => rfl
  have hgoto : ∀ {s₁ : Server} {t pc}, s₁.pc = s.pc → pc.calm = true →
      ∀ t', cfg.Runs t' → ((s₁.goto t pc).pc t').calm = true := by
    intro s₁ t pc hpcs hpc
    refine Server.forall_pc_goto (P := fun t' pc => cfg.Runs t' → pc.calm = true) ?_
      fun _ => hpc
    intro t' _ ht'
    rw [hpcs]
    exact h.pcs t' ht'
  have hnot : ∀ {t pc}, cfg.Runs t → s.pc t = pc → pc.calm = false → False := by
    intro t pc ht hpc hcalm
    have hold := h.pcs t ht
    rw [hpc, hcalm] at hold
    cases hold
  cases hmove with
  | arrived => exact h.keep rfl rfl hslot rfl h.pcs fun _ => rfl
  | booted hrun hpc => exact (hnot hrun hpc rfl).elim
  | waited _ _ _ hcol =>
      exact h.keep rfl hcol.pool hcol.slot rfl (hgoto rfl rfl) fun _ => by simp
  | drained => exact h.keep rfl rfl hslot rfl (hgoto rfl rfl) fun _ => rfl
  | ignored _ _ htk => exact h.keep rfl htk.pool htk.slot rfl h.pcs fun _ => rfl
  | writable _ _ htk => exact h.keep rfl htk.pool htk.slot rfl h.pcs fun _ => rfl
  | started _ _ htk _ hstart =>
      exact h.keep rfl htk.pool htk.slot rfl (hgoto rfl (Pc.calm_start hstart)) fun _ => rfl
  | acceptFailed => exact h.keep rfl rfl hslot rfl (hgoto rfl rfl) fun _ => rfl
  | rejected => exact h.keep rfl rfl hslot rfl (hgoto rfl rfl) fun _ => rfl
  | accepted =>
      obtain rfl := List.append_cancel_left hlog
      cases haccepted
  | handedOff hrun hpc => exact (hnot hrun hpc rfl).elim
  | handOffFailed hrun hpc => exact (hnot hrun hpc rfl).elim
  | announced hrun hpc => exact (hnot hrun hpc rfl).elim
  | counted hrun hpc => exact (hnot hrun hpc rfl).elim
  | pipeEmpty => exact h.keep rfl rfl hslot rfl (hgoto rfl rfl) fun _ => rfl
  | pipeTaken _ _ hitems =>
      rw [h.pipe] at hitems
      cases hitems
  | exhausted hrun hpc => exact (hnot hrun hpc rfl).elim
  | opened hrun hpc => exact (hnot hrun hpc rfl).elim
  | openFailed hrun hpc => exact (hnot hrun hpc rfl).elim
  | undone hrun hpc => exact (hnot hrun hpc rfl).elim
  | @received t env i fd =>
      obtain rfl := List.append_cancel_left hlog
      refine h.keep rfl rfl hslot rfl (hgoto rfl ?_) fun _ => rfl
      rcases Pc.received_cases i fd env.recv with ⟨hn, -⟩ | ⟨-, h⟩ | ⟨-, -, h⟩
      · have hfalse := hclosed fd
        rw [hn] at hfalse
        simp [closeSeen] at hfalse
      · rw [h]
        rfl
      · rw [h]
        rfl
  | closedNone hrun hpc => exact (hnot hrun hpc rfl).elim
  | closed hrun hpc => exact (hnot hrun hpc rfl).elim
  | refused => exact h.keep rfl rfl hslot rfl (hgoto rfl rfl) fun _ => rfl
  | pushed => exact h.keep rfl rfl hslot rfl (hgoto rfl rfl) fun _ => rfl
  | notified => exact h.keep rfl rfl hslot rfl (hgoto rfl rfl) fun _ => rfl
  | woke => exact h.keep rfl rfl hslot rfl h.pcs fun _ => rfl
  | handled => exact h.keep rfl rfl hslot rfl h.pcs fun _ => rfl
  | emptied => exact h.keep rfl rfl hslot rfl h.pcs fun _ => rfl

/-- What a run appends to the history, and that it touches no resource if it
accepts nothing and sees no close. -/
theorem calm_of_reach
    (hq : Quiescent cfg s₀)
    (hdesc : Descriptors cfg s₀)
    (hrun : Reachable (step cfg) s₀ s) :
    ∃ notes, s.log = s₀.log ++ notes ∧
      (acceptedOf notes = [] → (∀ fd, closeSeen fd notes = false) →
        Calm cfg s₀ s) := by
  refine hrun.invariant (I := fun s => ∃ notes, s.log = s₀.log ++ notes ∧
    (acceptedOf notes = [] → (∀ fd, closeSeen fd notes = false) → Calm cfg s₀ s)) ?_ ?_
  · exact ⟨[], (List.append_nil _).symm, fun _ _ => hq.calm hdesc⟩
  · rintro s a s' ⟨notes, hlog, hcalm⟩ - hstep
    have hmove := step_move hstep
    obtain ⟨new, hnew⟩ := hmove.log_append
    refine ⟨notes ++ new, by rw [hnew, hlog, List.append_assoc], fun haccepted hclosed => ?_⟩
    rw [acceptedOf_append, List.append_eq_nil_iff] at haccepted
    have hboth : ∀ fd, closeSeen fd notes = false ∧ closeSeen fd new = false := by
      intro fd
      have h := hclosed fd
      rwa [closeSeen_append, Bool.or_eq_false_iff] at h
    exact (hcalm haccepted.1 fun fd => (hboth fd).1).move hmove hnew haccepted.2
      fun fd => (hboth fd).2

end Calmness

section Result

variable {cfg : Cfg} {s s' : Server} {cs : List Fd} {notes : List Note}

/-- **Teardown undoes setup only of no connection.**  Between two states of the
server in which nothing is under way, let exactly the connections `cs` have been
accepted, used and closed by their peers.  Then `total_conns` has grown by their
number, their descriptors are open, and the resources are the same again if and
only if there were none. -/
theorem teardown_restores_iff
    (hreach : Reachable (step cfg) (ebSrvNew cfg) s)
    (hq : Quiescent cfg s)
    (hrun : Reachable (step cfg) s s')
    (hq' : Quiescent cfg s')
    (hlog : s'.log = s.log ++ notes)
    (hserved : ServedAndClosed cs notes) :
    s'.total_conns = s.total_conns + cs.length ∧
      (∀ fd ∈ cs, s'.isOpen fd = true) ∧
      (SameResources s s' ↔ cs = []) := by
  have hreach' := hreach.trans hrun
  have htotal : s'.total_conns = s.total_conns + cs.length := by
    rw [hq'.total_conns hreach', hq.total_conns hreach, hlog, acceptedOf_append,
      List.length_append, hserved.accepted]
    push_cast
    rfl
  refine ⟨htotal, ?_, ?_, ?_⟩
  · intro fd hfd
    have hacc : Accepted s'.log fd := by
      rw [← hserved.accepted, mem_acceptedOf] at hfd
      rw [hlog]
      exact List.mem_append_right _ hfd
    exact ((descriptors_of_reach hreach').accepted fd hacc).2
  · intro hsame
    rw [hsame.total_conns] at htotal
    exact List.eq_nil_of_length_eq_zero (by omega)
  · rintro rfl
    obtain ⟨notes', hlog', hcalm⟩ := calm_of_reach hq (descriptors_of_reach hreach) hrun
    rw [hlog] at hlog'
    obtain rfl := List.append_cancel_left hlog'
    refine (hcalm hserved.accepted fun fd => ?_).same
    cases hseen : closeSeen fd notes with
    | false => rfl
    | true => cases (hserved.closed fd).mp hseen

/-- One client is admitted by the small server, sends a byte and closes; the
worker handles both. -/
theorem Small.one_client :
    ∃ s s' notes, Reachable (step Small.cfg) Small.start s ∧ Quiescent Small.cfg s ∧
      Reachable (step Small.cfg) s s' ∧ Quiescent Small.cfg s' ∧
      s'.log = s.log ++ notes ∧ ServedAndClosed [7] notes := by
  obtain ⟨s, s', hreach, hcheck, hrun, hcheck'⟩ :=
    reachable_of_endsIn_append (step Small.cfg) Small.start
      Small.boot
      (Small.client 7 ++ Small.chunk 7 ++ Small.peerClose 7 ++
        [Small.worker, Small.worker])
      (fun s => decide (Quiescent Small.cfg s) && decide (s.log = []))
      (fun s => decide (Quiescent Small.cfg s) &&
        decide (acceptedOf s.log = [7]) && decide (closedOf s.log = [7]) &&
        calledFor .EB_CLOSE 7 s.log)
      (by decide +kernel) (by decide +kernel)
  simp only [Bool.and_eq_true, decide_eq_true_eq] at hcheck hcheck'
  obtain ⟨hq, hnil⟩ := hcheck
  obtain ⟨⟨⟨hq', haccepted⟩, hclosed⟩, hdelivered⟩ := hcheck'
  refine ⟨s, s', s'.log, hreach, hq, hrun, hq', by simp [hnil], haccepted, ?_, ?_⟩
  · intro fd
    rw [closeSeen_iff_mem, hclosed]
  · intro fd hfd
    rw [List.mem_singleton.mp hfd]
    exact calledFor_iff.mp hdelivered

/-- What that client leaves behind. -/
theorem teardown_restores_iff_one_client :
    ∃ s s', Reachable (step Small.cfg) Small.start s ∧
      Reachable (step Small.cfg) s s' ∧ Quiescent Small.cfg s' ∧
      s'.total_conns = s.total_conns + 1 ∧ s'.isOpen 7 = true ∧
      ¬ SameResources s s' := by
  obtain ⟨s, s', notes, hreach, hq, hrun, hq', hlog, hserved⟩ := Small.one_client
  obtain ⟨htotal, hopen, hiff⟩ := teardown_restores_iff hreach hq hrun hq' hlog hserved
  refine ⟨s, s', hreach, hrun, hq', htotal, hopen 7 (by simp), ?_⟩
  intro hsame
  cases hiff.mp hsame

/-- The resources are not restored by one client that comes and goes. -/
theorem not_teardown_restores :
    ¬ ∀ s s' notes cs, Reachable (step Small.cfg) Small.start s →
      Quiescent Small.cfg s → Reachable (step Small.cfg) s s' →
      Quiescent Small.cfg s' → s'.log = s.log ++ notes →
      ServedAndClosed cs notes → SameResources s s' := by
  intro hall
  obtain ⟨s, s', notes, hreach, hq, hrun, hq', hlog, hserved⟩ := Small.one_client
  have hsame := hall s s' notes [7] hreach hq hrun hq' hlog hserved
  have htotal := hq'.total_conns (hreach.trans hrun)
  rw [hsame.total_conns, hq.total_conns hreach, hlog, acceptedOf_append,
    List.length_append, hserved.accepted, List.length_singleton] at htotal
  omega

end Result

end Ebot
