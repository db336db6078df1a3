import Ebot.ServerMoves

/-!
# The listening socket

The master takes one connection from the backlog for each report of the
listening socket, and the socket is reported only when an edge is pending.  The
first half of this module shows that the master's event is the master's alone
in every run: no other thread holds it, frees it or runs its callback.  The
second half follows the edge.
-/

namespace Ebot

open Function EdgeSource EventState Transition

/-! ## The event of the master -/

/-- Who can be at a place. -/
inductive Role where
  | starting
  | anyone
  | master
  | reactor
deriving DecidableEq

/-- The role of a place. -/
def Pc.role : Pc → Role
  | .boot => .starting
  | .idle | .dispatch => .anyone
  | .accept | .handOff _ | .announce _ | .count => .master
  | .pipeRead _ | .opening _ _ _ | .undoing _ _ _ _ | .recv _ _ | .closing _ _ _
  | .pushing _ _ _ | .notify _ => .reactor

/-- Places a thread can be at while there is no connection. -/
def Pc.early : Pc → Bool
  | .boot | .idle | .dispatch | .pipeRead _ => true
  | .accept | .handOff _ | .announce _ | .count | .opening _ _ _ | .undoing _ _ _ _
  | .recv _ _ | .closing _ _ _ | .pushing _ _ _ | .notify _ => false

/-- Where a thread may be once the master has added the event `p`. -/
def Pc.Fits (p : Nat) : Tid → Pc → Prop
  | .master, pc => pc.role = .anyone ∨ pc.role = .master
  | .reactor _, pc => pc.role ≠ .master ∧ pc.undoes ≠ some p

/-- The event `p` is the master's, and nobody else's. -/
structure MasterEvent (cfg : Cfg) (E : EventState) (p : Nat) : Prop where
  used : E.used p = true
  slot : E.slot .master .read cfg.sfd = some p
  only : ∀ d fd q, E.slot .master d fd = some q → q = p
  cb : (E.ev p).callback = some .ebot_srv_accept
  arg : (E.ev p).arg = .srv
  cbs : ∀ q, (E.ev q).cb = some .ebot_srv_accept → q = p
  others : ∀ i d fd, E.slot (.reactor i) d fd ≠ some p
  otherReadies : ∀ i, p ∉ E.readies (.reactor i)
  readies : ∀ q ∈ E.readies .master, q = p
  queued : (E.ev p).queued = true → p ∈ E.readies .master

/-- Before the master has added its event: reactors hold slabs that are handed
out, and no connection exists. -/
structure BeforeMaster (s : Server) : Prop where
  master : s.pc .master = .boot
  pcs : ∀ t, (s.pc t).early = true
  pipes : ∀ i, (s.pipe i).items = []
  slots : ∀ d fd, s.events.slot .master d fd = none
  readies : s.events.readies .master = []
  cbs : ∀ q, (s.events.ev q).cb = none ∨
    (s.events.ev q).cb = some .reactor_pool_pipe_callback
  used : ∀ i d fd q, s.events.slot (.reactor i) d fd = some q →
    s.events.used q = true
  usedReadies : ∀ i, ∀ q ∈ s.events.readies (.reactor i), s.events.used q = true

/-- The master has its event to itself, once it has one. -/
def MasterAlone (cfg : Cfg) (s : Server) : Prop :=
  BeforeMaster s ∨
    ∃ p, MasterEvent cfg s.events p ∧ ∀ t, Pc.Fits p t (s.pc t)

namespace MasterEvent

variable {cfg : Cfg} {E E' : EventState} {p q i : Nat} {d : Dir} {e : SrvEvent}
variable {ret : Int}

/-- A reactor opens an event: its slab was free. -/
theorem opened
    (h : MasterEvent cfg E p)
    (hop : Opened E (.reactor i) d e q ret E')
    (he : e.cb ≠ some .ebot_srv_accept) :
    MasterEvent cfg E' p := by
  have hqp : p ≠ q := by
    rintro rfl
    have hfree := hop.free
    rw [h.used] at hfree
    cases hfree
  have hmaster : ∀ d fd, E'.slot .master d fd = E.slot .master d fd := by
    intro d fd
    rw [hop.slot]
    simp
  constructor
  · rw [hop.used, if_neg hqp]
    exact h.used
  · rw [hmaster]
    exact h.slot
  · intro d fd q' hq'
    rw [hmaster] at hq'
    exact h.only d fd q' hq'
  · rw [hop.ev, update_of_ne hqp]
    exact h.cb
  · rw [hop.ev, update_of_ne hqp]
    exact h.arg
  · intro q' hq'
    rw [hop.ev] at hq'
    by_cases hq : q' = q
    · subst hq
      rw [update_self] at hq'
      exact absurd hq' he
    · rw [update_of_ne hq] at hq'
      exact h.cbs q' hq'
  · intro j d' fd hslot
    rw [hop.slot] at hslot
    split at hslot
    · exact hqp (Option.some.inj hslot).symm
    · exact h.others j d' fd hslot
  · intro j
    rw [hop.readies]
    exact h.otherReadies j
  · rw [hop.readies]
    exact h.readies
  · rw [hop.ev, update_of_ne hqp, hop.readies]
    exact h.queued

/-- Another slab is put back. -/
theorem putBack
    (h : MasterEvent cfg E p)
    (hqp : q ≠ p)
    (hput : PutBack E q E') :
    MasterEvent cfg E' p := by
  have hslot : ∀ t d fd, E'.slot t d fd = E.slot t d fd := by
    intro t d fd
    simp [EventState.slot, hput.base]
  have hready : ∀ t, E'.readies t = E.readies t := by
    intro t
    simp [EventState.readies, hput.base]
  refine ⟨?_, ?_, ?_, ?_, ?_, ?_, ?_, ?_, ?_, ?_⟩
  · rw [hput.used, if_neg hqp.symm]
    exact h.used
  · rw [hslot]
    exact h.slot
  · intro d fd q' hq'
    rw [hslot] at hq'
    exact h.only d fd q' hq'
  · rw [hput.ev]
    exact h.cb
  · rw [hput.ev]
    exact h.arg
  · rw [hput.ev]
    exact h.cbs
  · intro j d' fd
    rw [hslot]
    exact h.others j d' fd
  · intro j
    rw [hready]
    exact h.otherReadies j
  · rw [hready]
    exact h.readies
  · rw [hput.ev, hready]
    exact h.queued

/-- A reactor closes an event of its own. -/
theorem closed
    {granted : Bool} {fd : Nat}
    (h : MasterEvent cfg E p)
    (hslot : E.slot (.reactor i) d fd = some q)
    (hcl : Closed E (.reactor i) q granted E') :
    MasterEvent cfg E' p := by
  have hqp : q ≠ p := by
    rintro rfl
    exact h.others i d fd hslot
  have hmaster : ∀ d fd, E'.slot .master d fd = E.slot .master d fd :=
    hcl.other .master (by simp)
  refine ⟨?_, ?_, ?_, ?_, ?_, ?_, ?_, ?_, ?_, ?_⟩
  · rw [hcl.used, if_neg hqp.symm]
    exact h.used
  · rw [hmaster]
    exact h.slot
  · intro d' fd' q' hq'
    rw [hmaster] at hq'
    exact h.only d' fd' q' hq'
  · rw [hcl.ev]
    exact h.cb
  · rw [hcl.ev]
    exact h.arg
  · rw [hcl.ev]
    exact h.cbs
  · intro j d' fd' hq'
    exact h.others j d' fd' (hcl.subset _ _ _ _ hq')
  · intro j
    rw [hcl.readies]
    exact h.otherReadies j
  · rw [hcl.readies]
    exact h.readies
  · rw [hcl.ev, hcl.readies]
    exact h.queued

/-- The parts of the invariant that loops do not touch. -/
theorem of_sameContent
    (h : MasterEvent cfg E p)
    (hpool : E'.pool = E.pool)
    (hcontent : SameContent E E')
    (hslot : ∀ t d fd, E'.slot t d fd = E.slot t d fd)
    (hothers : ∀ i, p ∉ E'.readies (.reactor i))
    (hready : ∀ q ∈ E'.readies .master, q = p)
    (hqueued : (E'.ev p).queued = true → p ∈ E'.readies .master) :
    MasterEvent cfg E' p := by
  refine ⟨?_, ?_, ?_, ?_, ?_, ?_, ?_, hothers, hready, hqueued⟩
  · rw [EventState.used, hpool]
    exact h.used
  · rw [hslot]
    exact h.slot
  · intro d fd q hq
    rw [hslot] at hq
    exact h.only d fd q hq
  · rw [hcontent.callback]
    exact h.cb
  · rw [hcontent.arg]
    exact h.arg
  · intro q hq
    rw [hcontent.cb] at hq
    exact h.cbs q hq
  · intro i d fd
    rw [hslot]
    exact h.others i d fd

/-- A batch is collected. -/
theorem collected
    {t : Tid} {reports : List Report}
    (h : MasterEvent cfg E p)
    (hcol : Collected E t reports E') :
    MasterEvent cfg E' p := by
  obtain ⟨new, -, hready, hnew, hflag⟩ := hcol.queue
  cases t with
  | master =>
      have hin : ∀ q ∈ new, q = p := by
        intro q hq
        obtain ⟨-, d, fd, hslot⟩ := hnew q hq
        exact h.only d fd q hslot
      refine h.of_sameContent hcol.pool hcol.content hcol.slot ?_ ?_ ?_
      · intro i
        rw [hcol.other _ (by simp)]
        exact h.otherReadies i
      · intro q hq
        rw [hready, List.mem_append] at hq
        exact hq.elim (h.readies q) (hin q)
      · intro hq
        rw [hflag, Bool.or_eq_true, decide_eq_true_eq] at hq
        rw [hready, List.mem_append]
        exact hq.elim .inr fun hq => .inl (h.queued hq)
  | reactor i =>
      have hout : p ∉ new := by
        intro hp
        obtain ⟨-, d, fd, hslot⟩ := hnew p hp
        exact h.others i d fd hslot
      have hmaster : E'.readies .master = E.readies .master :=
        hcol.other _ (by simp)
      refine h.of_sameContent hcol.pool hcol.content hcol.slot ?_ ?_ ?_
      · intro j
        by_cases hj : Tid.reactor j = .reactor i
        · rw [hj, hready, List.mem_append, not_or]
          exact ⟨hj ▸ h.otherReadies j, hout⟩
        · rw [hcol.other _ hj]
          exact h.otherReadies j
      · rw [hmaster]
        exact h.readies
      · intro hq
        rw [hflag] at hq
        rw [hmaster]
        exact h.queued (by simpa [hout] using hq)

/-- An event is taken from a ready queue. -/
theorem taken
    {t : Tid}
    (h : MasterEvent cfg E p)
    (htk : Taken E t q E') :
    MasterEvent cfg E' p := by
  have hsub : ∀ t' r, r ∈ E'.readies t' → r ∈ E.readies t' := by
    intro t' r hr
    by_cases ht : t' = t
    · subst ht
      rw [htk.queue]
      exact List.mem_cons_of_mem _ hr
    · rwa [htk.other t' ht] at hr
  refine h.of_sameContent htk.pool htk.content htk.slot
    (fun i hp => h.otherReadies i (hsub _ _ hp))
    (fun r hr => h.readies r (hsub _ _ hr)) fun hq => ?_
  rw [htk.queued, Bool.and_eq_true, decide_eq_true_eq] at hq
  obtain ⟨hne, hq⟩ := hq
  have hmem := h.queued hq
  by_cases ht : t = .master
  · subst ht
    rw [htk.queue, List.mem_cons] at hmem
    exact hmem.resolve_left hne
  · rw [htk.other _ fun he => ht he.symm]
    exact hmem

/-- What the master takes is its event; what a reactor takes is not. -/
theorem taken_cb
    {t : Tid}
    (h : MasterEvent cfg E p)
    (htk : Taken E t q E') :
    match t with
    | .master => q = p
    | .reactor _ => (E'.ev q).cb ≠ some .ebot_srv_accept := by
  have hmem : q ∈ E.readies t := by
    rw [htk.queue]
    exact List.mem_cons_self
  cases t with
  | master => exact h.readies q hmem
  | reactor i =>
      intro hcb
      rw [htk.content.cb] at hcb
      exact h.otherReadies i (h.cbs q hcb ▸ hmem)

end MasterEvent

section Steps

variable {cfg : Cfg} {s s' : Server} {a : Action} {p : Nat}

theorem beforeMaster_ebSrvNew : BeforeMaster (ebSrvNew cfg) := by
  constructor
  · rfl
  · exact fun t => rfl
  · exact fun i => rfl
  · intro d fd
    cases d <;> rfl
  · rfl
  · exact fun q => .inl rfl
  · intro i d fd q hq
    cases d <;> cases hq
  · intro i q hq
    cases hq

theorem bootEvent_cb_reactor
    {i : Nat} :
    (bootEvent cfg (.reactor i)).cb ≠ some .ebot_srv_accept := by
  simp [bootEvent, eventRead, eventOf]

/-- A thread goes on to a place of the same role, or back to its loop. -/
theorem Pc.Fits.goto
    {t : Tid} {old pc : Pc}
    (h : Pc.Fits p t old)
    (hrole : pc.role = old.role ∨ pc.role = .anyone)
    (hundoes : pc.undoes ≠ some p) :
    Pc.Fits p t pc := by
  cases t with
  | master =>
      rcases hrole with hrole | hrole
      · simp only [Pc.Fits] at h ⊢
        rw [hrole]
        exact h
      · exact .inl hrole
  | reactor i =>
      refine ⟨?_, hundoes⟩
      rcases hrole with hrole | hrole
      · exact hrole ▸ h.1
      · rw [hrole]
        decide

theorem Pc.opened_role
    (d d' : Dir) {i : Nat} {fd : Fd} {q : Nat} :
    ((Pc.opened i fd d).role = (Pc.opening d' i fd).role ∨
      (Pc.opened i fd d).role = .anyone) ∧ (Pc.opened i fd d).undoes ≠ some q := by
  cases d with
  | read => exact ⟨.inl rfl, nofun⟩
  | write => exact ⟨.inr rfl, nofun⟩

theorem Pc.closed_role
    {d d' : Dir} {i : Nat} {fd : Fd} {q : Nat} :
    ((Pc.closed i fd d).role = (Pc.closing d' i fd).role ∨
      (Pc.closed i fd d).role = .anyone) ∧ (Pc.closed i fd d).undoes ≠ some q := by
  cases d with
  | read => exact ⟨.inl rfl, nofun⟩
  | write => exact ⟨.inl rfl, nofun⟩

theorem Pc.received_role
    {i : Nat} {fd : Fd} {r : RecvResult} {q : Nat} :
    ((Pc.received i fd r).role = (Pc.recv i fd).role ∨
      (Pc.received i fd r).role = .anyone) ∧
        (Pc.received i fd r).undoes ≠ some q := by
  rcases Pc.received_cases i fd r with ⟨-, h⟩ | ⟨-, h⟩ | ⟨-, -, h⟩ <;> rw [h]
  · exact ⟨.inl rfl, nofun⟩
  · exact ⟨.inr rfl, nofun⟩
  · exact ⟨.inl rfl, nofun⟩

theorem clientEvent_cb
    {d : Dir} {fd : Fd} {i : Nat} :
    (clientEvent d fd i).cb ≠ some .ebot_srv_accept := by
  cases d <;> simp [clientEvent, eventOf, clientCallback]

/-- After the master has added its event. -/
theorem MasterEvent.move
    (h : MasterEvent cfg s.events p)
    (hpcs : ∀ t, Pc.Fits p t (s.pc t))
    (hmove : Move cfg s a s') :
    MasterEvent cfg s'.events p ∧ ∀ t, Pc.Fits p t (s'.pc t) := by
  have hset : ∀ {t pc}, Pc.Fits p t pc → ∀ t', Pc.Fits p t' ((s.goto t pc).pc t') :=
    fun hfit => Server.forall_pc_goto (P := fun t pc => Pc.Fits p t pc)
      (fun t' _ => hpcs t') hfit
  have hgo : ∀ {t old pc}, s.pc t = old →
      (pc.role = old.role ∨ pc.role = .anyone) ∧ pc.undoes ≠ some p →
      ∀ t', Pc.Fits p t' ((s.goto t pc).pc t') :=
    fun {t _ _} hold hrole => hset ((hold ▸ hpcs t).goto hrole.1 hrole.2)
  cases hmove with
  | arrived => exact ⟨h, hpcs⟩
  | @booted t _ _ _ _ hpc hop =>
      cases t with
      | master =>
          have hfit := hpcs .master
          rw [hpc] at hfit
          exact absurd hfit (by simp [Pc.Fits, Pc.role])
      | reactor i =>
          exact ⟨h.opened hop bootEvent_cb_reactor, hgo hpc ⟨.inr rfl, nofun⟩⟩
  | waited _ hpc _ hcol => exact ⟨h.collected hcol, hgo hpc ⟨.inr rfl, nofun⟩⟩
  | drained _ hpc _ => exact ⟨h, hgo hpc ⟨.inr rfl, nofun⟩⟩
  | ignored _ _ htk _ => exact ⟨h.taken htk, hpcs⟩
  | @started t _ q events cb pc _ hpc htk hcb hstart =>
      have h' := h.taken htk
      have hq := h.taken_cb htk
      refine ⟨h', hset ?_⟩
      cases t with
      | master =>
          cases hq
          rw [h'.cb, Option.some.injEq] at hcb
          rw [← hcb, h'.arg] at hstart
          cases hstart
          exact .inr rfl
      | reactor i =>
          have hne : cb ≠ .ebot_srv_accept := by
            rintro rfl
            exact hq (Event.cb_of_callback hcb)
          cases harg : (events.ev q).arg <;> rw [harg] at hstart <;>
            cases cb <;> cases hstart
          · exact absurd rfl hne
          · exact ⟨nofun, nofun⟩
          · exact ⟨nofun, nofun⟩
  | writable _ _ htk _ _ => exact ⟨h.taken htk, hpcs⟩
  | acceptFailed _ hpc _ => exact ⟨h, hgo hpc ⟨.inr rfl, nofun⟩⟩
  | rejected _ hpc => exact ⟨h, hgo hpc ⟨.inr rfl, nofun⟩⟩
  | accepted _ hpc => exact ⟨h, hgo hpc ⟨.inl rfl, nofun⟩⟩
  | handedOff _ hpc _ => exact ⟨h, hgo hpc ⟨.inl rfl, nofun⟩⟩
  | handOffFailed _ hpc _ => exact ⟨h, hgo hpc ⟨.inl rfl, nofun⟩⟩
  | announced _ hpc => exact ⟨h, hgo hpc ⟨.inl rfl, nofun⟩⟩
  | counted _ hpc _ => exact ⟨h, hgo hpc ⟨.inr rfl, nofun⟩⟩
  | pipeEmpty _ hpc _ => exact ⟨h, hgo hpc ⟨.inr rfl, nofun⟩⟩
  | pipeTaken _ hpc _ => exact ⟨h, hgo hpc ⟨.inl rfl, nofun⟩⟩
  | exhausted _ hpc => exact ⟨h, hgo hpc ⟨.inr rfl, nofun⟩⟩
  | opened _ hpc hop => exact ⟨h.opened hop clientEvent_cb, hgo hpc (Pc.opened_role _ _)⟩
  | @openFailed t _ d _ _ q _ _ hpc hop =>
      refine ⟨h.opened hop clientEvent_cb, hgo hpc ⟨.inl rfl, ?_⟩⟩
      intro hqp
      cases hqp
      have hfree := hop.free
      rw [h.used] at hfree
      cases hfree
  | @undone t _ d _ _ q _ _ hpc hput =>
      have hfit := hpcs t
      rw [hpc] at hfit
      refine ⟨?_, hgo hpc (Pc.opened_role _ d)⟩
      cases t with
      | master => exact absurd hfit (by simp [Pc.Fits, Pc.role])
      | reactor i => exact h.putBack (fun he => hfit.2 (he ▸ rfl)) hput
  | received _ hpc => exact ⟨h, hgo hpc Pc.received_role⟩
  | closedNone _ hpc _ => exact ⟨h, hgo hpc Pc.closed_role⟩
  | closed _ hpc hslot hcl => exact ⟨h.closed hslot hcl, hgo hpc Pc.closed_role⟩
  | refused _ hpc => exact ⟨h, hgo hpc ⟨.inr rfl, nofun⟩⟩
  | pushed _ hpc => exact ⟨h, hgo hpc ⟨.inl rfl, nofun⟩⟩
  | notified _ hpc => exact ⟨h, hgo hpc ⟨.inr rfl, nofun⟩⟩
  | woke => exact ⟨h, hpcs⟩
  | handled => exact ⟨h, hpcs⟩
  | emptied => exact ⟨h, hpcs⟩

/-- The master adds its event: its slab was free, so nobody holds it. -/
theorem BeforeMaster.booted
    {events : EventState}
    (h : BeforeMaster s)
    (hop : Opened s.events .master .read (bootEvent cfg .master) p 0 events) :
    MasterEvent cfg events p := by
  have hunused : ∀ q, s.events.used q = true → q ≠ p := by
    rintro q hq rfl
    have hfree := hop.free
    rw [hq] at hfree
    cases hfree
  have hmaster : ∀ d fd, events.slot .master d fd =
      if d = .read ∧ fd = cfg.sfd then some p else none := by
    intro d fd
    rw [hop.slot, h.slots]
    simp [bootEvent, eventRead]
  have hother : ∀ i d fd, events.slot (.reactor i) d fd =
      s.events.slot (.reactor i) d fd := by
    intro i d fd
    rw [hop.slot]
    simp
  constructor
  · rw [hop.used, if_pos rfl]
  · rw [hmaster]
    simp
  · intro d fd q hq
    rw [hmaster] at hq
    split at hq
    · exact (Option.some.inj hq).symm
    · cases hq
  · rw [hop.ev, update_self]
    rfl
  · rw [hop.ev, update_self]
    rfl
  · intro q hq
    rw [hop.ev] at hq
    by_contra hqp
    rw [update_of_ne hqp] at hq
    rcases h.cbs q with hcb | hcb
    · rw [hcb] at hq
      cases hq
    · rw [hcb] at hq
      cases hq
  · intro i d fd hslot
    rw [hother] at hslot
    exact hunused p (h.used i d fd p hslot) rfl
  · intro i hmem
    rw [hop.readies] at hmem
    exact hunused p (h.usedReadies i p hmem) rfl
  · rw [hop.readies, h.readies]
    intro q hq
    cases hq
  · rw [hop.ev, update_self]
    intro hq
    cases hq

/-- Steps that change no event before the master has added its own. -/
theorem BeforeMaster.stay
    (h : BeforeMaster s)
    (hmaster : s'.pc .master = .boot)
    (hpcs : ∀ t, (s'.pc t).early = true)
    (hpipe : ∀ i, (s'.pipe i).items = (s.pipe i).items)
    (hevents : s'.events = s.events) :
    BeforeMaster s' := by
  constructor
  · exact hmaster
  · exact hpcs
  · intro i
    rw [hpipe, h.pipes]
  all_goals rw [hevents]
  · exact h.slots
  · exact h.readies
  · exact h.cbs
  · exact h.used
  · exact h.usedReadies

/-- A reactor adds its event before the master does. -/
theorem BeforeMaster.bootedReactor
    {i : Nat} {events : EventState}
    (h : BeforeMaster s)
    (hop : Opened s.events (.reactor i) .read (bootEvent cfg (.reactor i)) p 0 events) :
    BeforeMaster ({ s with events }.goto (.reactor i) .idle) := by
  have hmono : ∀ q, s.events.used q = true → events.used q = true := by
    intro q hq
    rw [hop.used]
    split
    · rfl
    · exact hq
  constructor
  · simpa using h.master
  · exact Server.forall_pc_goto (P := fun _ pc => pc.early = true)
      (fun t' _ => h.pcs t') rfl
  · exact h.pipes
  · intro d fd
    rw [Server.goto_events, hop.slot, h.slots]
    simp
  · rw [Server.goto_events, hop.readies, h.readies]
  · intro q
    rw [Server.goto_events, hop.ev]
    by_cases hq : q = p
    · subst hq
      rw [update_self]
      exact .inr rfl
    · rw [update_of_ne hq]
      exact h.cbs q
  · intro j d fd q hq
    rw [Server.goto_events] at hq ⊢
    rw [hop.slot] at hq
    split at hq
    · cases hq
      rw [hop.used, if_pos rfl]
    · exact hmono q (h.used j d fd q hq)
  · intro j q hq
    rw [Server.goto_events] at hq ⊢
    rw [hop.readies] at hq
    exact hmono q (h.usedReadies j q hq)

/-- The loop of a reactor before the master has added its event. -/
theorem BeforeMaster.loop
    {i : Nat} {pc : Pc} {events : EventState}
    (h : BeforeMaster s)
    (pipe : Nat → Source Fd)
    (backlog : Source Unit)
    (hpc : pc.early = true)
    (hpipe : ∀ i, (pipe i).items = (s.pipe i).items)
    (hpool : events.pool = s.events.pool)
    (hcontent : SameContent s.events events)
    (hslot : ∀ t d fd, events.slot t d fd = s.events.slot t d fd)
    (hother : ∀ t, t ≠ .reactor i → events.readies t = s.events.readies t)
    (hready : ∀ q ∈ events.readies (.reactor i), s.events.used q = true) :
    BeforeMaster ({ s with events, pipe, backlog }.goto (.reactor i) pc) := by
  have hused : ∀ q, events.used q = s.events.used q := by
    intro q
    simp [EventState.used, hpool]
  constructor
  · simpa using h.master
  · exact Server.forall_pc_goto (P := fun _ pc => pc.early = true)
      (fun t' _ => h.pcs t') hpc
  · intro j
    exact (hpipe j).trans (h.pipes j)
  · intro d fd
    rw [Server.goto_events, hslot, h.slots]
  · rw [Server.goto_events, hother _ (by simp), h.readies]
  · intro q
    rw [Server.goto_events, hcontent.cb]
    exact h.cbs q
  · intro j d fd q hq
    rw [Server.goto_events] at hq ⊢
    rw [hslot] at hq
    rw [hused]
    exact h.used j d fd q hq
  · intro j q hq
    rw [Server.goto_events] at hq ⊢
    rw [hused]
    by_cases hj : Tid.reactor j = .reactor i
    · rw [hj] at hq
      exact hready q hq
    · rw [hother _ hj] at hq
      exact h.usedReadies j q hq

theorem Pc.fits_of_early
    {pc : Pc} {i : Nat}
    (h : pc.early = true) :
    Pc.Fits p (.reactor i) pc := by
  cases pc <;> first | (cases h; done) | exact ⟨nofun, nofun⟩

/-- Before the master has added its event. -/
theorem BeforeMaster.move
    (h : BeforeMaster s)
    (hmove : Move cfg s a s') :
    MasterAlone cfg s' := by
  have hlate : ∀ {t pc}, s.pc t = pc → pc.early = false → False := by
    intro t pc hpc hearly
    have hpcs := h.pcs t
    rw [hpc, hearly] at hpcs
    cases hpcs
  have hmaster : ∀ {t pc}, s.pc t = pc → pc ≠ .boot → t ≠ .master := by
    rintro t pc hpc hne rfl
    exact hne (hpc ▸ h.master)
  have hearly : ∀ {t pc}, pc.early = true →
      ∀ t', ((s.goto t pc).pc t').early = true :=
    fun hpc => Server.forall_pc_goto (P := fun _ pc => pc.early = true)
      (fun t' _ => h.pcs t') hpc
  have htaken : ∀ {i q events}, Taken s.events (.reactor i) q events →
      ∀ q' ∈ events.readies (.reactor i), s.events.used q' = true := by
    intro i q events htk q' hq'
    refine h.usedReadies i q' ?_
    rw [htk.queue]
    exact List.mem_cons_of_mem _ hq'
  cases hmove with
  | arrived =>
      exact .inl (h.stay h.master h.pcs (fun _ => rfl) rfl)
  | @booted t _ p events _ hpc hop =>
      cases t with
      | reactor i => exact .inl (h.bootedReactor hop)
      | master =>
          refine .inr ⟨p, h.booted hop, ?_⟩
          refine Server.forall_pc_goto (P := fun t pc => Pc.Fits p t pc)
            (fun t' ht' => ?_) (.inl rfl)
          cases t' with
          | master => exact absurd rfl ht'
          | reactor i => exact Pc.fits_of_early (h.pcs (.reactor i))
  | @waited t reports events _ hpc _ hcol =>
      cases t with
      | master => exact absurd rfl (hmaster hpc nofun)
      | reactor i =>
          refine .inl (h.loop _ _ rfl (fun _ => by simp) hcol.pool hcol.content hcol.slot
            hcol.other ?_)
          obtain ⟨new, -, hready, hnew, -⟩ := hcol.queue
          intro q hq
          rw [hready, List.mem_append] at hq
          rcases hq with hq | hq
          · exact h.usedReadies i q hq
          · obtain ⟨-, d, fd, hslot⟩ := hnew q hq
            exact h.used i d fd q hslot
  | @drained t _ _ hpc _ =>
      refine .inl (h.stay ?_ (hearly rfl) (fun _ => rfl) rfl)
      simpa [update_of_ne (hmaster hpc nofun).symm] using h.master
  | @ignored t _ q events _ hpc htk hcb =>
      cases t with
      | master => exact absurd rfl (hmaster hpc nofun)
      | reactor i =>
          have hloop : BeforeMaster (({ s with events } : Server).goto (.reactor i) .dispatch) :=
            h.loop s.pipe s.backlog rfl (fun _ => rfl) htk.pool htk.content htk.slot
              htk.other (htaken htk)
          rw [show ({ s with events } : Server).goto (.reactor i) .dispatch =
            { s with events } by simp [Server.goto, ← hpc]] at hloop
          exact .inl hloop
  | @started t _ q events cb pc _ hpc htk hcb hstart =>
      cases t with
      | master => exact absurd rfl (hmaster hpc nofun)
      | reactor i =>
          refine .inl (h.loop s.pipe s.backlog ?_ (fun _ => rfl)
            htk.pool htk.content htk.slot htk.other (htaken htk))
          have hcb' := Event.cb_of_callback hcb
          rw [htk.content.cb] at hcb'
          rcases h.cbs q with hq | hq
          · rw [hq] at hcb'
            cases hcb'
          · rw [hq] at hcb'
            cases hcb'
            cases harg : (events.ev q).arg <;> rw [harg] at hstart <;> cases hstart
            rfl
  | @writable t _ q events _ _ hpc htk hcb =>
      have hcb' := Event.cb_of_callback hcb
      rw [htk.content.cb] at hcb'
      rcases h.cbs q with hq | hq
      · rw [hq] at hcb'
        cases hcb'
      · rw [hq] at hcb'
        cases hcb'
  | @pipeEmpty t _ _ _ hpc _ =>
      refine .inl (h.stay ?_ (hearly rfl) (fun _ => rfl) rfl)
      simpa [update_of_ne (hmaster hpc nofun).symm] using h.master
  | @pipeTaken t _ i _ _ _ hpc hitems =>
      rw [h.pipes] at hitems
      cases hitems
  | woke => exact .inl (h.stay h.master h.pcs (fun _ => rfl) rfl)
  | handled => exact .inl (h.stay h.master h.pcs (fun _ => rfl) rfl)
  | emptied => exact .inl (h.stay h.master h.pcs (fun _ => rfl) rfl)
  | acceptFailed _ hpc => exact (hlate hpc rfl).elim
  | rejected _ hpc => exact (hlate hpc rfl).elim
  | accepted _ hpc => exact (hlate hpc rfl).elim
  | handedOff _ hpc => exact (hlate hpc rfl).elim
  | handOffFailed _ hpc => exact (hlate hpc rfl).elim
  | announced _ hpc => exact (hlate hpc rfl).elim
  | counted _ hpc => exact (hlate hpc rfl).elim
  | exhausted _ hpc => exact (hlate hpc rfl).elim
  | opened _ hpc => exact (hlate hpc rfl).elim
  | openFailed _ hpc => exact (hlate hpc rfl).elim
  | undone _ hpc => exact (hlate hpc rfl).elim
  | received _ hpc => exact (hlate hpc rfl).elim
  | closedNone _ hpc => exact (hlate hpc rfl).elim
  | closed _ hpc => exact (hlate hpc rfl).elim
  | refused _ hpc => exact (hlate hpc rfl).elim
  | pushed _ hpc => exact (hlate hpc rfl).elim
  | notified _ hpc => exact (hlate hpc rfl).elim

/-- In every run the master has its event to itself. -/
theorem masterAlone_of_reach
    {good : Server → Action → Prop}
    (hreach : Reach (step cfg) good (ebSrvNew cfg) s) :
    MasterAlone cfg s := by
  refine hreach.invariant (.inl beforeMaster_ebSrvNew) ?_
  intro s a s' h _ hstep
  have hmove := step_move hstep
  rcases h with h | ⟨p, h, hpcs⟩
  · exact h.move hmove
  · exact .inr ⟨p, h.move hpcs hmove⟩

/-- Once it has started, the master has an event. -/
theorem MasterAlone.event
    (h : MasterAlone cfg s)
    (hpc : s.pc .master ≠ .boot) :
    ∃ p, MasterEvent cfg s.events p := by
  rcases h with h | ⟨p, hp, -⟩
  · exact absurd h.master hpc
  · exact ⟨p, hp⟩

/-- Only the master accepts. -/
theorem MasterAlone.eq_master
    {t : Tid} {pc : Pc}
    (h : MasterAlone cfg s)
    (hpc : s.pc t = pc)
    (hrole : pc.role = .master) :
    t = .master := by
  subst hpc
  cases t with
  | master => rfl
  | reactor i =>
      exfalso
      rcases h with h | ⟨p, -, hpcs⟩
      · exact (Pc.fits_of_early (p := 0) (i := i) (h.pcs (.reactor i))).1 hrole
      · exact (hpcs (.reactor i)).1 hrole

/-- The master never runs the callbacks of a reactor. -/
theorem MasterAlone.ne_master
    {t : Tid}
    (h : MasterAlone cfg s)
    (hrole : (s.pc t).role = .reactor) :
    t ≠ .master := by
  rintro rfl
  rcases h with h | ⟨p, -, hpcs⟩
  · rw [h.master] at hrole
    cases hrole
  · have hfit := hpcs .master
    simp only [Pc.Fits, hrole] at hfit
    simp at hfit

/-- Steps of other threads leave the master's queue alone, and, but for
arrivals, the backlog. -/
theorem Move.master_frame
    (halone : MasterAlone cfg s)
    (hmove : Move cfg s a s')
    (ha : a.thread ≠ some .master) :
    s'.events.readies .master = s.events.readies .master ∧
      (s'.backlog = s.backlog ∨ s'.backlog.Covered) := by
  have hne : ∀ {t}, some t ≠ some Tid.master → Tid.master ≠ t :=
    fun h he => h (he ▸ rfl)
  cases hmove with
  | arrived => exact ⟨rfl, .inr Source.covered_arrive⟩
  | booted _ _ hop => exact ⟨hop.readies _, .inl rfl⟩
  | @waited t _ _ _ _ _ hcol =>
      have ht : ¬ t = .master := fun he => ha (he ▸ rfl)
      exact ⟨hcol.other _ (hne ha), .inl (by simp [ht, Source.reportIf_false])⟩
  | drained => exact ⟨rfl, .inl rfl⟩
  | ignored _ _ htk _ => exact ⟨htk.other _ (hne ha), .inl rfl⟩
  | started _ _ htk _ _ => exact ⟨htk.other _ (hne ha), .inl rfl⟩
  | writable _ _ htk _ _ => exact ⟨htk.other _ (hne ha), .inl rfl⟩
  | acceptFailed _ hpc => exact absurd (halone.eq_master hpc rfl) (hne ha).symm
  | rejected _ hpc => exact absurd (halone.eq_master hpc rfl) (hne ha).symm
  | accepted _ hpc => exact absurd (halone.eq_master hpc rfl) (hne ha).symm
  | opened _ _ hop => exact ⟨hop.readies _, .inl rfl⟩
  | openFailed _ _ hop => exact ⟨hop.readies _, .inl rfl⟩
  | undone _ _ hput => exact ⟨by simp [EventState.readies, hput.base], .inl rfl⟩
  | closed _ _ _ hcl => exact ⟨hcl.readies _, .inl rfl⟩
  | _ => exact ⟨rfl, .inl rfl⟩

end Steps

/-! ## The edge of the listening socket -/

/-- `ebot_srv_accept` runs only when an edge is pending, when nobody waits, or
when one client waits and is accepted. -/
def AcceptKeepsUp (s : Server) : Action → Prop
  | .run t env =>
      s.pc t = .accept →
        s.backlog.edge = true ∨ s.backlog.items = [] ∨
          s.backlog.items.length = 1 ∧ env.accepted ≠ none
  | _ => True

instance (s : Server) : DecidablePred (AcceptKeepsUp s)
  | .run t env => by
      dsimp only [AcceptKeepsUp]
      infer_instance
  | .arrive | .wait _ _ | .work _ _ => isTrue trivial

/-- Waiting clients have an edge, or the master is about to accept. -/
structure Attended (s : Server) : Prop where
  idle : (s.pc .master).waits = true → s.events.readies .master = []
  attended : s.backlog.Covered ∨ s.events.readies .master ≠ [] ∨
    s.pc .master = .accept

section Backlog

variable {cfg : Cfg} {s s' : Server} {a : Action}

theorem attended_ebSrvNew : Attended (ebSrvNew cfg) :=
  ⟨fun _ => rfl, .inl Source.covered_empty⟩

/-- A place of the master at which nothing is queued or about to be accepted. -/
theorem Attended.covered
    (h : Attended s)
    (hempty : s.events.readies .master = [])
    (hpc : s.pc .master ≠ .accept) :
    s.backlog.Covered := by
  rcases h.attended with hcov | hne | hacc
  · exact hcov
  · exact absurd hempty hne
  · exact absurd hacc hpc

/-- Steps of other threads that leave the backlog and the master's queue alone. -/
theorem Attended.other
    (h : Attended s)
    (hpc : s'.pc .master = s.pc .master)
    (hready : s'.events.readies .master = s.events.readies .master)
    (hbacklog : s'.backlog = s.backlog) :
    Attended s' := by
  refine ⟨?_, ?_⟩
  · rw [hpc, hready]
    exact h.idle
  · rw [hpc, hready, hbacklog]
    exact h.attended

/-- Steps of the master outside its loop. -/
theorem Attended.callback
    {pc : Pc}
    (h : Attended s)
    (hold : s.pc .master ≠ .accept)
    (hpc : s'.pc .master = pc)
    (hbusy : pc.waits = false)
    (hready : s'.events.readies .master = s.events.readies .master)
    (hbacklog : s'.backlog = s.backlog) :
    Attended s' := by
  refine ⟨?_, ?_⟩
  · rw [hpc, hbusy]
    exact fun h => absurd h Bool.false_ne_true
  · rw [hready, hbacklog]
    rcases h.attended with hcov | hne | hacc
    · exact .inl hcov
    · exact .inr (.inl hne)
    · exact absurd hacc hold

/-- The accept step, by which nobody is left behind. -/
theorem Attended.accepting
    {pc : Pc}
    (hcov : s'.backlog.Covered)
    (hpc : s'.pc .master = pc)
    (hbusy : pc.waits = false) :
    Attended s' := by
  refine ⟨?_, .inl hcov⟩
  rw [hpc, hbusy]
  exact fun h => absurd h Bool.false_ne_true

/-- A batch of reports at the master: when it consumes the edge, the master's
event is queued. -/
theorem Attended.waited
    {reports : List Report} {events : EventState} {p : Nat} {pipe : Nat → Source Fd}
    (h : Attended s)
    (hp : MasterEvent cfg s.events p)
    (hpc : s.pc .master = .idle)
    (hmay : ∀ rep ∈ reports, mayReport cfg s .master rep = true)
    (hcol : Collected s.events .master reports events) :
    Attended
      ({ s with
          events
          backlog := s.backlog.reportIf (reported reports cfg.sfd)
          pipe }.goto .master .dispatch) := by
  refine ⟨by simp [Pc.waits], ?_⟩
  have hempty := h.idle (Pc.waits_iff.mpr (.inl hpc))
  cases hrep : reported reports cfg.sfd with
  | false => exact .inl (h.covered hempty (by simp [hpc]))
  | true =>
      right
      left
      obtain ⟨rep, hmem, hfd', hin⟩ := reports_read_of_reported hmay hrep
      have hqueued := (hp.collected hcol).queued
        (hcol.selected rep hmem .read p hin (hfd' ▸ hp.slot))
      exact List.ne_nil_of_mem hqueued

/-- One step of the master that keeps up. -/
theorem Attended.move_master
    (h : Attended s)
    (halone : MasterAlone cfg s)
    (hgood : AcceptKeepsUp s a)
    (hmove : Move cfg s a s')
    (ha : a.thread = some .master) :
    Attended s' := by
  have hreactor : ∀ {pc}, s.pc .master = pc → pc.role = .reactor → False :=
    fun hpc hrole => halone.ne_master (hpc ▸ hrole) rfl
  cases hmove with
  | arrived => cases ha
  | woke => cases ha
  | handled => cases ha
  | emptied => cases ha
  | booted _ hpc hop =>
      cases ha
      have hempty := h.idle (Pc.waits_iff.mpr (.inr hpc))
      exact ⟨fun _ => (hop.readies _).trans hempty,
        .inl (h.covered hempty (by simp [hpc]))⟩
  | waited _ hpc hmay hcol =>
      cases ha
      obtain ⟨p, hp⟩ := halone.event (by simp [hpc])
      simpa using h.waited hp hpc hmay hcol
  | drained _ hpc hempty =>
      cases ha
      exact ⟨fun _ => hempty, .inl (h.covered hempty (by simp [hpc]))⟩
  | ignored _ hpc htk hcb =>
      cases ha
      obtain ⟨p, hp⟩ := halone.event (by simp [hpc])
      cases hp.taken_cb htk
      rw [(hp.taken htk).cb] at hcb
      cases hcb
  | started _ hpc htk hcb hstart =>
      cases ha
      obtain ⟨p, hp⟩ := halone.event (by simp [hpc])
      cases hp.taken_cb htk
      have hp' := hp.taken htk
      rw [hp'.cb] at hcb
      cases hcb
      rw [hp'.arg] at hstart
      cases hstart
      exact ⟨by simp [Pc.waits], .inr (.inr (by simp))⟩
  | writable _ hpc htk hcb harg =>
      cases ha
      obtain ⟨p, hp⟩ := halone.event (by simp [hpc])
      cases hp.taken_cb htk
      rw [(hp.taken htk).cb] at hcb
      cases hcb
  | acceptFailed _ hpc hacc =>
      cases ha
      refine .accepting (fun hne => ?_) Server.goto_pc_self rfl
      rcases hgood hpc with hedge | hnil | ⟨-, hsome⟩
      · exact hedge
      · exact absurd hnil hne
      · exact absurd hacc hsome
  | @rejected _ _ _ rest _ hpc _ hitems =>
      cases ha
      refine .accepting (Source.covered_leave ?_) Server.goto_pc_self rfl
      rcases hgood hpc with hedge | hnil | ⟨hone, -⟩
      · exact .inl hedge
      · rw [hitems] at hnil
        cases hnil
      · rw [hitems] at hone
        exact .inr (by simpa using hone)
  | @accepted _ _ _ rest _ hpc _ hitems =>
      cases ha
      refine .accepting (Source.covered_leave ?_) Server.goto_pc_self rfl
      rcases hgood hpc with hedge | hnil | ⟨hone, -⟩
      · exact .inl hedge
      · rw [hitems] at hnil
        cases hnil
      · rw [hitems] at hone
        exact .inr (by simpa using hone)
  | handedOff _ hpc =>
      cases ha
      exact h.callback (by simp [hpc]) Server.goto_pc_self rfl rfl rfl
  | handOffFailed _ hpc =>
      cases ha
      exact h.callback (by simp [hpc]) Server.goto_pc_self rfl rfl rfl
  | announced _ hpc =>
      cases ha
      exact h.callback (by simp [hpc]) Server.goto_pc_self rfl rfl rfl
  | counted _ hpc =>
      cases ha
      exact h.callback (by simp [hpc]) Server.goto_pc_self rfl rfl rfl
  | pipeEmpty _ hpc => cases ha; exact (hreactor hpc rfl).elim
  | pipeTaken _ hpc => cases ha; exact (hreactor hpc rfl).elim
  | exhausted _ hpc => cases ha; exact (hreactor hpc rfl).elim
  | opened _ hpc => cases ha; exact (hreactor hpc rfl).elim
  | openFailed _ hpc => cases ha; exact (hreactor hpc rfl).elim
  | undone _ hpc => cases ha; exact (hreactor hpc rfl).elim
  | received _ hpc => cases ha; exact (hreactor hpc rfl).elim
  | closedNone _ hpc => cases ha; exact (hreactor hpc rfl).elim
  | closed _ hpc => cases ha; exact (hreactor hpc rfl).elim
  | refused _ hpc => cases ha; exact (hreactor hpc rfl).elim
  | pushed _ hpc => cases ha; exact (hreactor hpc rfl).elim
  | notified _ hpc => cases ha; exact (hreactor hpc rfl).elim

/-- One move that keeps up. -/
theorem Attended.move
    (h : Attended s)
    (halone : MasterAlone cfg s)
    (hgood : AcceptKeepsUp s a)
    (hmove : Move cfg s a s') :
    Attended s' := by
  by_cases ha : a.thread = some .master
  · exact h.move_master halone hgood hmove ha
  · have hpc := hmove.pc_other ha
    obtain ⟨hready, hbacklog | hcov⟩ := hmove.master_frame halone ha
    · exact h.other hpc hready hbacklog
    · refine ⟨?_, .inl hcov⟩
      rw [hpc, hready]
      exact h.idle

end Backlog

/-- **No client is stranded in the backlog** of any run in which each accept
leaves nobody behind: while the master is not inside `dispatch_events`, waiting
clients have a pending edge. -/
theorem backlog_attended
    {cfg : Cfg} {s : Server}
    (hreach : Reach (step cfg) AcceptKeepsUp (ebSrvNew cfg) s)
    (hout : s.pc .master = .idle ∨ s.pc .master = .boot) :
    s.backlog.Covered := by
  have h : Attended s := by
    refine hreach.invariant_of (J := MasterAlone cfg)
      (fun s hr => masterAlone_of_reach hr) attended_ebSrvNew ?_
    intro s a s' halone _ h hgood hstep
    exact h.move halone hgood (step_move hstep)
  refine h.covered (h.idle (Pc.waits_iff.mpr hout)) ?_
  rcases hout with hpc | hpc <;> simp [hpc]

/-- Two clients arrive one after the other, each with its own report. -/
theorem backlog_attended_two_clients :
    ∃ s, Reach (step Small.cfg) AcceptKeepsUp Small.start s ∧
      s.pc .master = .idle ∧ s.backlog.items.length = 1 ∧ s.backlog.edge = true := by
  obtain ⟨s, hreach, hcheck⟩ := reach_of_endsIn (step Small.cfg)
    AcceptKeepsUp Small.start .disabled
    (Small.boot ++ Small.handOff 7 ++ Small.connect ++ [.arrive])
    (fun s =>
      decide (s.pc .master = .idle) && decide (s.backlog.items.length = 1))
    (by decide +kernel)
  simp only [Bool.and_eq_true, decide_eq_true_eq] at hcheck
  obtain ⟨hidle, hone⟩ := hcheck
  have hcov := backlog_attended hreach (.inl hidle)
  exact ⟨s, hreach, hidle, hone, hcov (by intro hnil; simp [hnil] at hone)⟩

/-- Two clients arrive before the master wakes: one is accepted, and the other
is left without an edge. -/
theorem not_backlog_attended :
    ¬ ∀ s, Reachable (step Small.cfg) Small.start s →
      s.pc .master = .idle ∨ s.pc .master = .boot → s.backlog.Covered := by
  intro hall
  obtain ⟨s, hreach, hcheck⟩ := reachable_of_endsIn (step Small.cfg) Small.start
    (Small.boot ++ [.arrive] ++ Small.handOff 7 ++ Small.connect)
    (fun s =>
      decide (s.pc .master = .idle) && decide (s.backlog.items.length = 1) &&
        !s.backlog.edge)
    (by decide +kernel)
  simp only [Bool.and_eq_true, decide_eq_true_eq, Bool.not_eq_true'] at hcheck
  obtain ⟨⟨hidle, hone⟩, hedge⟩ := hcheck
  have hcov := hall s hreach (.inl hidle) (by intro hnil; simp [hnil] at hone)
  rw [hedge] at hcov
  cases hcov

end Ebot
