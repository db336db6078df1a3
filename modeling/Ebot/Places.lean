import Ebot.Listener
import Ebot.Registry

/-!
# The places of a connection

From `accept` to the removal of its read event a connection is in one place at
a time: with the master, in the pipe of its reactor, with the reactor that
registers it, or in the reactor's table of read events.  Once its close was
seen it is nowhere.  So a connection whose close was seen is not read again.
-/

namespace Ebot

open Function EdgeSource EventState Transition

/-- The connection the master is about to write to a pipe. -/
def Pc.hands : Pc → Option Fd
  | .handOff fd => some fd
  | .boot | .idle | .dispatch | .accept | .announce _ | .count | .pipeRead _
  | .opening _ _ _ | .undoing _ _ _ _ | .recv _ _ | .closing _ _ _
  | .pushing _ _ _ | .notify _ => none

/-- The connection a reactor is registering for reading. -/
def Pc.registers : Pc → Option Fd
  | .opening .read _ fd | .undoing .read _ fd _ => some fd
  | .opening .write _ _ | .undoing .write _ _ _ | .boot | .idle | .dispatch
  | .accept | .handOff _ | .announce _ | .count | .pipeRead _ | .recv _ _
  | .closing _ _ _ | .pushing _ _ _ | .notify _ => none

/-- The connection whose read event a reactor is about to remove. -/
def Pc.removes : Pc → Option Fd
  | .closing .read _ fd => some fd
  | .closing .write _ _ | .opening _ _ _ | .undoing _ _ _ _ | .boot | .idle
  | .dispatch | .accept | .handOff _ | .announce _ | .count | .pipeRead _
  | .recv _ _ | .pushing _ _ _ | .notify _ => none

/-- The connection a reactor reads from and has not yet removed. -/
def Pc.reads : Pc → Option Fd
  | .recv _ fd | .closing .read _ fd => some fd
  | .closing .write _ _ | .opening _ _ _ | .undoing _ _ _ _ | .boot | .idle
  | .dispatch | .accept | .handOff _ | .announce _ | .count | .pipeRead _
  | .pushing _ _ _ | .notify _ => none

/-! ## The read event of a connection that is read -/

/-- A queued read event of a connection is registered, and so is the one whose
callback runs; that one is not queued. -/
structure ReadSide (s : Server) : Prop where
  queued : ∀ t, ∀ p ∈ s.events.readies t,
    (s.events.ev p).cb = some .reactor_pool_client_read_callback →
    s.events.slot t .read (s.events.ev p).fd = some p
  current : ∀ t fd, (s.pc t).reads = some fd →
    ∃ p, s.events.slot t .read fd = some p ∧ p ∉ s.events.readies t

section ReadEvents

variable {cfg : Cfg} {s s' : Server} {a : Action} {t : Tid} {events : EventState}

theorem readSide_ebSrvNew : ReadSide (ebSrvNew cfg) where
  queued := by
    intro t p hp
    cases t <;> cases hp
  current := by
    intro t fd h
    cases h

/-- Steps in the same tables and queues that start no reading. -/
theorem ReadSide.same
    (h : ReadSide s)
    (hevents : s'.events = s.events)
    (hpc : ∀ t fd, (s'.pc t).reads = some fd → (s.pc t).reads = some fd) :
    ReadSide s' := by
  constructor
  · rw [hevents]
    exact h.queued
  · intro t fd hfd
    rw [hevents]
    exact h.current t fd (hpc t fd hfd)

/-- A thread goes on to a place where it does not read. -/
theorem reads_goto
    {pc : Pc}
    (hpc : pc.reads = none) :
    ∀ t' fd, ((s.goto t pc).pc t').reads = some fd →
      t' ≠ t ∧ (s.pc t').reads = some fd := by
  intro t' fd hfd
  by_cases ht : t' = t
  · subst ht
    rw [Server.goto_pc_self, hpc] at hfd
    cases hfd
  · refine ⟨ht, ?_⟩
    simpa [update_of_ne ht] using hfd

/-- An event is opened. -/
theorem ReadSide.opened
    {t₀ : Tid} {d : Dir} {e : SrvEvent} {p : Nat} {ret : Int} {pc : Pc}
    (h : ReadSide s)
    (htables : Tables s.events)
    (hop : Opened s.events t₀ d e p ret events)
    (hpc : pc.reads = none) :
    ReadSide ({ s with events }.goto t pc) := by
  constructor
  · intro t' q hq hcb
    dsimp only [Server.goto_events] at hq hcb ⊢
    rw [hop.readies] at hq
    have hne : q ≠ p := by
      rintro rfl
      exact htables.not_ready_of_unqueued hop.unqueued hq
    have hev : events.ev q = s.events.ev q := by
      rw [hop.ev, update_of_ne hne]
    rw [hev] at hcb ⊢
    have hslot := h.queued t' q hq hcb
    rw [hop.slot, hslot]
    simp
  · intro t' fd hfd
    obtain ⟨q, hslot, hout⟩ := h.current t' fd (reads_goto hpc t' fd hfd).2
    refine ⟨q, ?_, ?_⟩
    · rw [Server.goto_events, hop.slot, hslot]
      simp
    · rw [Server.goto_events, hop.readies]
      exact hout

/-- A slab is put back. -/
theorem ReadSide.putBack
    {p : Nat} {pc : Pc}
    (h : ReadSide s)
    (hput : PutBack s.events p events)
    (hpc : pc.reads = none) :
    ReadSide ({ s with events }.goto t pc) := by
  constructor
  · intro t' q hq hcb
    simp only [Server.goto_events, EventState.readies, EventState.slot, hput.base,
      hput.ev] at hq hcb ⊢
    exact h.queued t' q hq hcb
  · intro t' fd hfd
    simpa only [Server.goto_events, EventState.readies, EventState.slot, hput.base]
      using h.current t' fd (reads_goto hpc t' fd hfd).2

/-- A batch is collected: what is newly queued is registered. -/
theorem ReadSide.collected
    {reports : List Report} {backlog : Source Unit} {pipe : Nat → Source Fd}
    (h : ReadSide s)
    (htables : Tables s.events)
    (hdesc : Descriptors cfg s)
    (hcol : Collected s.events t reports events) :
    ReadSide ({ s with events, backlog, pipe }.goto t .dispatch) := by
  obtain ⟨new, -, hready, hnew, -⟩ := hcol.queue
  constructor
  · intro t' q hq hcb
    dsimp only [Server.goto_events] at hq hcb ⊢
    rw [hcol.content.cb] at hcb
    rw [hcol.slot, hcol.content.fd]
    by_cases ht : t' = t
    · subst ht
      rw [hready, List.mem_append] at hq
      rcases hq with hq | hq
      · exact h.queued t' q hq hcb
      · obtain ⟨-, d, fd, hslot⟩ := hnew q hq
        obtain ⟨-, -, hread⟩ := (hdesc.ev q).client (d := .read) hcb
        have hd : d = .read :=
          Dir.kide_injective ((htables.isFor _ _ _ _ hslot).symm.trans hread)
        rw [htables.fd _ _ _ _ hslot, ← hd]
        exact hslot
    · rw [hcol.other t' ht] at hq
      exact h.queued t' q hq hcb
  · intro t' fd hfd
    obtain ⟨ht, hfd⟩ := reads_goto rfl t' fd hfd
    obtain ⟨q, hslot, hout⟩ := h.current t' fd hfd
    refine ⟨q, ?_, ?_⟩
    · rw [Server.goto_events, hcol.slot]
      exact hslot
    · rw [Server.goto_events, hcol.other t' ht]
      exact hout

/-- An event is taken: the reading that starts is that of its own connection. -/
theorem ReadSide.taken
    {p : Nat}
    (h : ReadSide s)
    (htables : Tables s.events)
    (htk : Taken s.events t p events)
    (hevents : s'.events = events)
    (hother : ∀ t', t' ≠ t → s'.pc t' = s.pc t')
    (hreads : ∀ fd, (s'.pc t).reads = some fd →
      (events.ev p).cb = some .reactor_pool_client_read_callback ∧
        fd = (events.ev p).fd) :
    ReadSide s' := by
  have hsub : ∀ t', ∀ q ∈ events.readies t', q ∈ s.events.readies t' := by
    intro t' q hq
    by_cases ht : t' = t
    · subst ht
      rw [htk.queue]
      exact List.mem_cons_of_mem _ hq
    · rwa [htk.other t' ht] at hq
  subst hevents
  constructor
  · intro t' q hq hcb
    rw [htk.content.cb] at hcb
    rw [htk.slot, htk.content.fd]
    exact h.queued t' q (hsub t' q hq) hcb
  · intro t' fd hfd
    by_cases ht : t' = t
    · subst ht
      obtain ⟨hcb, rfl⟩ := hreads fd hfd
      rw [htk.content.cb] at hcb
      refine ⟨p, ?_, ?_⟩
      · rw [htk.slot, htk.content.fd]
        exact h.queued t' p (htk.queue ▸ List.mem_cons_self) hcb
      · have hnodup := htables.nodup t'
        rw [htk.queue] at hnodup
        exact (List.nodup_cons.mp hnodup).1
    · rw [hother t' ht] at hfd
      obtain ⟨q, hslot, hout⟩ := h.current t' fd hfd
      refine ⟨q, ?_, ?_⟩
      · rw [htk.slot]
        exact hslot
      · exact fun hq => hout (hsub t' q hq)

/-- The close path removes an event: if it is the read event, it is not queued. -/
theorem ReadSide.closed
    {d : Dir} {i p : Nat} {fd : Fd} {pc : Pc}
    (h : ReadSide s)
    (htables : Tables s.events)
    (ht : t = .reactor i)
    (hpc : s.pc t = .closing d i fd)
    (hslot : s.events.slot (.reactor i) d fd = some p)
    (hcl : Closed s.events (.reactor i) p true events)
    (hreads : pc.reads = none) :
    ReadSide ({ s with events }.goto t pc) := by
  subst ht
  have hfor := htables.isFor _ _ _ _ hslot
  have hfd := htables.fd _ _ _ _ hslot
  constructor
  · intro t' q hq hcb
    dsimp only [Server.goto_events] at hq hcb ⊢
    rw [hcl.readies] at hq
    rw [hcl.ev] at hcb ⊢
    have hold := h.queued t' q hq hcb
    by_cases ht : t' = .reactor i
    · subst ht
      rw [hcl.slot d hfor, if_neg]
      · exact hold
      · rintro ⟨-, rfl, he⟩
        rw [he, hfd, hslot] at hold
        cases hold
        obtain ⟨q', hslot', hout⟩ := h.current (.reactor i) fd (by rw [hpc]; rfl)
        rw [hslot] at hslot'
        cases hslot'
        exact hout hq
    · rw [hcl.other t' ht]
      exact hold
  · intro t' fd' hfd'
    obtain ⟨hne, hfd'⟩ := reads_goto hreads t' fd' hfd'
    obtain ⟨q, hq, hout⟩ := h.current t' fd' hfd'
    refine ⟨q, ?_, ?_⟩
    · rw [Server.goto_events, hcl.other t' hne]
      exact hq
    · rw [Server.goto_events, hcl.readies]
      exact hout

theorem Pc.reads_start
    {e : SrvEvent} {cb : Callback} {pc : Pc} {fd : Fd}
    (hcb : e.callback = some cb)
    (h : Pc.start e.fd cb e.arg = some pc)
    (hreads : pc.reads = some fd) :
    e.cb = some .reactor_pool_client_read_callback ∧ fd = e.fd := by
  have hcb' := Event.cb_of_callback hcb
  cases harg : e.arg <;> rw [harg] at h <;> cases cb <;> cases h <;> cases hreads
  exact ⟨hcb', rfl⟩

/-- One move. -/
theorem ReadSide.move
    (h : ReadSide s)
    (horderly : Orderly cfg s)
    (hdesc : Descriptors cfg s)
    (hgood : RemovalsGranted s a)
    (hmove : Move cfg s a s') :
    ReadSide s' := by
  have htables := horderly.tables
  have hacts : ∀ {t pc}, s.pc t = pc → pc.ActsFor cfg t := fun hpc => hpc ▸ horderly.acts _
  have hstay : ∀ t fd, (s.pc t).reads = some fd → (s.pc t).reads = some fd :=
    fun _ _ => id
  have hfree : ∀ {s₁ : Server} {t pc}, s₁.pc = s.pc → pc.reads = none →
      ∀ t' fd, ((s₁.goto t pc).pc t').reads = some fd → (s.pc t').reads = some fd := by
    intro s₁ t pc hpcs hpc t' fd hfd
    rw [← hpcs]
    exact (reads_goto hpc t' fd hfd).2
  have hopened : ∀ {i fd d}, (Pc.opened i fd d).reads = none := by
    intro i fd d
    cases d <;> rfl
  have hclosed : ∀ {i fd d}, (Pc.closed i fd d).reads = none := by
    intro i fd d
    cases d <;> rfl
  cases hmove with
  | arrived => exact h.same rfl hstay
  | booted _ _ hop => exact h.opened htables hop rfl
  | waited _ _ _ hcol => exact h.collected htables hdesc hcol
  | drained => exact h.same rfl (hfree rfl rfl)
  | ignored _ hpc htk =>
      refine h.taken htables htk rfl (fun _ _ => rfl) fun fd hfd => ?_
      rw [hpc] at hfd
      cases hfd
  | writable _ hpc htk =>
      refine h.taken htables htk rfl (fun _ _ => rfl) fun fd hfd => ?_
      rw [Server.note_pc, hpc] at hfd
      cases hfd
  | started _ _ htk hcb hstart =>
      refine h.taken htables htk rfl (fun t' ht => by simp [update_of_ne ht])
        fun fd hfd => ?_
      rw [Server.goto_pc_self] at hfd
      exact Pc.reads_start hcb hstart hfd
  | acceptFailed => exact h.same rfl (hfree rfl rfl)
  | rejected => exact h.same rfl (hfree rfl rfl)
  | accepted => exact h.same rfl (hfree rfl rfl)
  | handedOff => exact h.same rfl (hfree rfl rfl)
  | handOffFailed => exact h.same rfl (hfree rfl rfl)
  | announced => exact h.same rfl (hfree rfl rfl)
  | counted => exact h.same rfl (hfree rfl rfl)
  | pipeEmpty => exact h.same rfl (hfree rfl rfl)
  | pipeTaken => exact h.same rfl (hfree rfl rfl)
  | exhausted => exact h.same rfl (hfree rfl rfl)
  | opened _ _ hop => exact h.opened htables hop hopened
  | openFailed _ _ hop => exact h.opened htables hop rfl
  | undone _ _ hput => exact h.putBack hput hopened
  | @received t env i fd _ hpc =>
      refine h.same rfl fun t' fd' hfd' => ?_
      by_cases ht : t' = t
      · subst ht
        rw [Server.goto_pc_self] at hfd'
        rw [hpc]
        rcases Pc.received_cases i fd env.recv with ⟨-, h⟩ | ⟨-, h⟩ | ⟨-, -, h⟩ <;>
          rw [h] at hfd'
        · exact hfd'
        · cases hfd'
        · cases hfd'
      · simpa [update_of_ne ht] using hfd'
  | closedNone => exact h.same rfl (hfree rfl hclosed)
  | closed _ hpc hslot hcl hgrant =>
      obtain rfl := htables.granted hpc hslot hgood hgrant
      exact h.closed htables (hacts hpc) hpc hslot hcl hclosed
  | refused => exact h.same rfl (hfree rfl rfl)
  | pushed => exact h.same rfl (hfree rfl rfl)
  | notified => exact h.same rfl (hfree rfl rfl)
  | woke => exact h.same rfl hstay
  | handled => exact h.same rfl hstay
  | emptied => exact h.same rfl hstay

/-- In every run with the removals granted. -/
theorem readSide_of_reach
    {good : Server → Action → Prop}
    (hgranted : ∀ s a, good s a → RemovalsGranted s a)
    (hreach : Reach (step cfg) good (ebSrvNew cfg) s) :
    ReadSide s := by
  refine hreach.invariant_of (J := fun s => Orderly cfg s ∧ Descriptors cfg s)
    (fun s hr => ⟨orderly_of_reach hgranted hr, descriptors_of_reach hr⟩)
    readSide_ebSrvNew ?_
  intro s a s' hJ _ h hgood hstep
  exact h.move hJ.1 hJ.2 (hgranted s a hgood) (step_move hstep)

end ReadEvents

/-! ## One place at a time -/

/-- The close of the peer was seen on the descriptor. -/
def closeSeen (fd : Fd) (log : List Note) : Bool :=
  log.any fun
    | .received fd' n _ => decide (fd' = fd ∧ n = -2)
    | _ => false

/-- One if the thread is about to hand the connection off. -/
def handing (fd : Fd) (pc : Pc) : Nat :=
  if pc.hands = some fd then 1 else 0

/-- One if the thread is registering the connection for reading. -/
def registering (fd : Fd) (pc : Pc) : Nat :=
  if pc.registers = some fd then 1 else 0

/-- One if a read event is registered. -/
def registered (slot : Option Nat) : Nat :=
  if slot = none then 0 else 1

/-- One if the close was seen and the thread is not about to remove the read
event. -/
def spent (fd : Fd) (seen : Bool) (pc : Pc) : Nat :=
  if seen = true ∧ pc.removes ≠ some fd then 1 else 0

/-- In how many places the connection is, the one after its removal included. -/
def places (cfg : Cfg) (fd : Fd) (s : Server) : Nat :=
  handing fd (s.pc .master) +
  (s.pipe (cfg.reactorOf fd)).items.count fd +
  registering fd (s.pc (.reactor (cfg.reactorOf fd))) +
  registered (s.events.slot (.reactor (cfg.reactorOf fd)) .read fd) +
  spent fd (closeSeen fd s.log) (s.pc (.reactor (cfg.reactorOf fd)))

/-- The connection is in one place at most, and nowhere before it was
accepted. -/
structure OnePlace (cfg : Cfg) (fd : Fd) (s : Server) : Prop where
  one : places cfg fd s ≤ 1
  fresh : ¬ Accepted s.log fd → places cfg fd s = 0

section Places

variable {cfg : Cfg} {s s' : Server} {a : Action} {t : Tid} {fd : Fd}
variable {log notes : List Note}

/-- Callbacks start with nothing handed off or registered. -/
theorem Pc.plain_start
    {fd' : Fd} {cb : Callback} {arg : Arg} {pc : Pc}
    (h : Pc.start fd' cb arg = some pc) :
    pc.hands = none ∧ pc.registers = none := by
  cases cb <;> cases arg <;> cases h <;> exact ⟨rfl, rfl⟩

theorem closeSeen_append :
    closeSeen fd (log ++ notes) = (closeSeen fd log || closeSeen fd notes) :=
  List.any_append

theorem closeSeen_append_of_false
    (hnotes : closeSeen fd notes = false) :
    closeSeen fd (log ++ notes) = closeSeen fd log := by
  rw [closeSeen_append, hnotes, Bool.or_false]

theorem closeSeen_iff :
    closeSeen fd log = true ↔ ∃ d, .received fd (-2) d ∈ log := by
  unfold closeSeen
  rw [List.any_eq_true]
  constructor
  · rintro ⟨x, hx, h⟩
    cases x with
    | received fd' n d =>
        simp only [decide_eq_true_eq] at h
        obtain ⟨rfl, rfl⟩ := h
        exact ⟨d, hx⟩
    | _ => cases h
  · rintro ⟨d, hx⟩
    exact ⟨_, hx, by simp⟩

/-- Callbacks of the application are not reads. -/
theorem closeSeen_callback
    {c : Caller} {e : EbEvent} {stream : EbStream} :
    closeSeen fd (callback cfg c e stream) = false := by
  unfold callback
  split <;> rfl

theorem handing_le
    {pc pc' : Pc}
    (h : pc'.hands = some fd → pc.hands = some fd) :
    handing fd pc' ≤ handing fd pc := by
  unfold handing
  by_cases hpc : pc'.hands = some fd
  · simp [hpc, h hpc]
  · simp [hpc]

theorem registering_le
    {pc pc' : Pc}
    (h : pc'.registers = some fd → pc.registers = some fd) :
    registering fd pc' ≤ registering fd pc := by
  unfold registering
  by_cases hpc : pc'.registers = some fd
  · simp [hpc, h hpc]
  · simp [hpc]

theorem registered_le
    {o o' : Option Nat}
    (h : o = none → o' = none) :
    registered o' ≤ registered o := by
  unfold registered
  by_cases ho : o = none
  · simp [ho, h ho]
  · simp only [ho, if_false]
    split <;> simp

theorem spent_le
    {seen seen' : Bool} {pc pc' : Pc}
    (h : seen' = true → pc'.removes ≠ some fd → seen = true ∧ pc.removes ≠ some fd) :
    spent fd seen' pc' ≤ spent fd seen pc := by
  unfold spent
  by_cases hseen : seen' = true ∧ pc'.removes ≠ some fd
  · simp [hseen, h hseen.1 hseen.2]
  · rw [if_neg hseen]
    exact Nat.zero_le _

/-- A step that leaves all threads where they are. -/
theorem places_stay
    (hpc : s'.pc = s.pc)
    (hpipe : s'.pipe = s.pipe)
    (hslot : s.events.slot (.reactor (cfg.reactorOf fd)) .read fd = none →
      s'.events.slot (.reactor (cfg.reactorOf fd)) .read fd = none)
    (hseen : closeSeen fd s'.log = closeSeen fd s.log) :
    places cfg fd s' ≤ places cfg fd s := by
  have hregistered := registered_le hslot
  unfold places
  rw [hpc, hpipe, hseen]
  omega

/-- A step by which one thread goes on and the connection gets nowhere new. -/
theorem places_goto
    {pc₀ pc : Pc}
    (hold : s.pc t = pc₀)
    (hpc : s'.pc = update s.pc t pc)
    (hhands : pc.hands ≠ some fd)
    (hregisters : pc.registers = some fd → pc₀.registers = some fd)
    (hremoves : pc₀.removes ≠ some fd)
    (hpipe : (s'.pipe (cfg.reactorOf fd)).items.count fd ≤
      (s.pipe (cfg.reactorOf fd)).items.count fd)
    (hslot : s.events.slot (.reactor (cfg.reactorOf fd)) .read fd = none →
      s'.events.slot (.reactor (cfg.reactorOf fd)) .read fd = none)
    (hseen : closeSeen fd s'.log = true → pc.removes ≠ some fd →
      closeSeen fd s.log = true)
    (hseen' : t ≠ .reactor (cfg.reactorOf fd) →
      closeSeen fd s'.log = closeSeen fd s.log) :
    places cfg fd s' ≤ places cfg fd s := by
  have hother : ∀ {t'}, t' ≠ t → s'.pc t' = s.pc t' := by
    intro t' ht
    rw [hpc, update_of_ne ht]
  have hself : s'.pc t = pc := by rw [hpc, update_self]
  have h₁ : handing fd (s'.pc .master) ≤ handing fd (s.pc .master) := by
    refine handing_le fun h => ?_
    by_cases ht : Tid.master = t
    · subst ht
      rw [hself] at h
      exact absurd h hhands
    · rwa [hother ht] at h
  have h₂ : registering fd (s'.pc (.reactor (cfg.reactorOf fd))) ≤
      registering fd (s.pc (.reactor (cfg.reactorOf fd))) := by
    refine registering_le fun h => ?_
    by_cases ht : Tid.reactor (cfg.reactorOf fd) = t
    · rw [ht] at h ⊢
      rw [hself] at h
      rw [hold]
      exact hregisters h
    · rwa [hother ht] at h
  have h₃ := registered_le hslot
  have h₄ : spent fd (closeSeen fd s'.log) (s'.pc (.reactor (cfg.reactorOf fd))) ≤
      spent fd (closeSeen fd s.log) (s.pc (.reactor (cfg.reactorOf fd))) := by
    refine spent_le fun h hne => ?_
    by_cases ht : Tid.reactor (cfg.reactorOf fd) = t
    · rw [ht] at hne ⊢
      rw [hself] at hne
      rw [hold]
      exact ⟨hseen h hne, hremoves⟩
    · rw [hother ht] at hne
      exact ⟨hseen' (Ne.symm ht) ▸ h, hne⟩
  unfold places
  omega

/-- Writing a descriptor to a pipe. -/
theorem count_arrive
    {pipe : Nat → Source Fd} {fd' : Fd} {i j : Nat}
    (hne : fd' ≠ fd) :
    ((update pipe j ((pipe j).arrive fd')) i).items.count fd = (pipe i).items.count fd := by
  by_cases hi : i = j
  · subst hi
    rw [update_self, Source.arrive_items, List.count_append,
      List.count_singleton, if_neg (by simpa using hne)]
    omega
  · rw [update_of_ne hi]

/-- A step of a thread that neither reads nor closes, in the same tables. -/
theorem places_quiet
    {s₁ : Server} {pc₀ pc : Pc}
    (hold : s.pc t = pc₀)
    (hpcs : s₁.pc = s.pc)
    (hpipe : ∀ i, (s₁.pipe i).items = (s.pipe i).items)
    (hseen : closeSeen fd s₁.log = closeSeen fd s.log)
    (hslot : s.events.slot (.reactor (cfg.reactorOf fd)) .read fd = none →
      s₁.events.slot (.reactor (cfg.reactorOf fd)) .read fd = none)
    (hhands : pc.hands = none)
    (hregisters : pc.registers = none ∨ pc.registers = pc₀.registers)
    (hremoves : pc₀.removes = none) :
    places cfg fd (s₁.goto t pc) ≤ places cfg fd s := by
  refine places_goto hold (by rw [Server.goto_pc, hpcs]) (by simp [hhands]) ?_
    (by simp [hremoves]) (by rw [Server.goto_pipe, hpipe]) hslot
    (fun h _ => hseen ▸ h) fun _ => hseen
  intro hpc
  rcases hregisters with hnone | hsame
  · rw [hnone] at hpc
    cases hpc
  · rwa [hsame] at hpc

/-- The master writes to the pipe: the connection moves there. -/
theorem places_handedOff
    {fd' : Fd}
    (hpc : s.pc .master = .handOff fd') :
    places cfg fd
        ({ s with
            pipe := update s.pipe (cfg.reactorOf fd')
              ((s.pipe (cfg.reactorOf fd')).arrive fd') }.goto .master
          (.announce fd')) ≤
      places cfg fd s := by
  by_cases hfd : fd' = fd
  · subst hfd
    have h₁ : handing fd' (s.pc .master) = 1 := by
      rw [hpc]
      exact if_pos rfl
    have h₂ : (update s.pipe (cfg.reactorOf fd')
        ((s.pipe (cfg.reactorOf fd')).arrive fd') (cfg.reactorOf fd')).items.count fd' =
        (s.pipe (cfg.reactorOf fd')).items.count fd' + 1 := by
      rw [update_self, Source.arrive_items, List.count_append, List.count_singleton_self]
    have h₃ : handing fd' (.announce fd') = 0 := rfl
    unfold places
    dsimp only [Server.goto]
    rw [h₂, update_self, h₁, h₃, update_of_ne (by simp)]
    omega
  · exact places_goto hpc rfl nofun nofun nofun (count_arrive hfd).le id
      (fun h _ => h) fun _ => rfl

/-- A reactor reads its pipe: the connection moves to it. -/
theorem places_pipeTaken
    {i : Nat} {fd' : Fd} {rest : List Fd}
    (hpc : s.pc (.reactor i) = .pipeRead i)
    (hitems : (s.pipe i).items = fd' :: rest) :
    places cfg fd
        ({ s with pipe := update s.pipe i ((s.pipe i).leave rest) }.goto (.reactor i)
          (.opening .read i fd')) ≤
      places cfg fd s := by
  by_cases hi : cfg.reactorOf fd = i
  · by_cases hfd : fd' = fd
    · subst hi hfd
      have h₁ : (s.pipe (cfg.reactorOf fd')).items.count fd' = rest.count fd' + 1 := by
        rw [hitems, List.count_cons_self]
      have h₂ : registering fd' (.opening .read (cfg.reactorOf fd') fd') = 1 := if_pos rfl
      have h₃ : registering fd' (s.pc (.reactor (cfg.reactorOf fd'))) = 0 := by
        rw [hpc]
        rfl
      have h₄ : spent fd' (closeSeen fd' s.log)
            (.opening .read (cfg.reactorOf fd') fd') =
          spent fd' (closeSeen fd' s.log) (s.pc (.reactor (cfg.reactorOf fd'))) := by
        rw [hpc]
        rfl
      unfold places
      dsimp only [Server.goto]
      rw [update_self, update_self, Source.leave_items, h₁, h₂, h₃, h₄,
        update_of_ne (by simp)]
      omega
    · refine places_goto hpc rfl nofun ?_ nofun ?_ id (fun h _ => h) fun _ => rfl
      · rintro ⟨⟩
        exact absurd rfl hfd
      · subst hi
        dsimp only [Server.goto]
        rw [update_self, Source.leave_items, hitems]
        exact List.count_le_count_cons
  · have hne : Tid.reactor (cfg.reactorOf fd) ≠ .reactor i := by simpa using hi
    unfold places
    dsimp only [Server.goto]
    rw [update_of_ne hi, update_of_ne hne, update_of_ne (by simp)]

/-- The read event is registered: the connection is in the table now. -/
theorem places_opened
    {d : Dir} {fd' : Fd} {p : Nat} {events : EventState}
    (hpc : s.pc (.reactor (cfg.reactorOf fd')) =
      .opening d (cfg.reactorOf fd') fd')
    (hop : Opened s.events (.reactor (cfg.reactorOf fd')) d
      (clientEvent d fd' (cfg.reactorOf fd')) p 0 events) :
    places cfg fd
        ({ s with events }.goto (.reactor (cfg.reactorOf fd'))
          (.opened (cfg.reactorOf fd') fd' d)) ≤
      places cfg fd s := by
  by_cases hsame : d = .read ∧ fd' = fd
  · obtain ⟨rfl, rfl⟩ := hsame
    have h₁ : registering fd' (s.pc (.reactor (cfg.reactorOf fd'))) = 1 := by
      rw [hpc]
      exact if_pos rfl
    have h₂ : registering fd' (.opened (cfg.reactorOf fd') fd' .read) = 0 := rfl
    have h₃ : registered (events.slot (.reactor (cfg.reactorOf fd')) .read fd') ≤ 1 := by
      unfold registered
      split <;> simp
    have h₄ : spent fd' (closeSeen fd' s.log) (.opened (cfg.reactorOf fd') fd' .read) =
        spent fd' (closeSeen fd' s.log) (s.pc (.reactor (cfg.reactorOf fd'))) := by
      rw [hpc]
      rfl
    unfold places
    dsimp only [Server.goto]
    rw [update_self, h₁, h₂, h₄, update_of_ne (by simp)]
    omega
  · refine places_goto hpc rfl ?_ ?_ nofun Nat.le.refl ?_ (fun h _ => h) fun _ => rfl
    · cases d <;> nofun
    · cases d <;> nofun
    · intro hnone
      rw [Server.goto_events, hop.slot, if_neg]
      · exact hnone
      · rintro ⟨-, -, hd, hfd, -⟩
        exact hsame ⟨hd.symm, (Fin.ext hfd).symm⟩

/-- The read event is removed: the connection is nowhere any more. -/
theorem places_closed
    {d : Dir} {fd' : Fd} {p : Nat} {events : EventState}
    (htables : Tables s.events)
    (hpc : s.pc (.reactor (cfg.reactorOf fd')) =
      .closing d (cfg.reactorOf fd') fd')
    (hslot : s.events.slot (.reactor (cfg.reactorOf fd')) d fd' = some p)
    (hcl : Closed s.events (.reactor (cfg.reactorOf fd')) p true events) :
    places cfg fd
        ({ s with events }.goto (.reactor (cfg.reactorOf fd'))
          (.closed (cfg.reactorOf fd') fd' d)) ≤
      places cfg fd s := by
  have hfor := htables.isFor _ _ _ _ hslot
  have hfd' := htables.fd _ _ _ _ hslot
  by_cases hsame : d = .read ∧ fd' = fd
  · obtain ⟨rfl, rfl⟩ := hsame
    have hgone : events.slot (.reactor (cfg.reactorOf fd')) .read fd' = none := by
      rw [hcl.slot .read hfor, if_pos ⟨rfl, rfl, hfd'.symm⟩]
    have h₁ : registered (events.slot (.reactor (cfg.reactorOf fd')) .read fd') = 0 := by
      rw [hgone]
      rfl
    have h₂ : registered (s.events.slot (.reactor (cfg.reactorOf fd')) .read fd') = 1 := by
      rw [hslot]
      rfl
    have h₃ : spent fd' (closeSeen fd' s.log) (.closed (cfg.reactorOf fd') fd' .read) ≤ 1 := by
      unfold spent
      split <;> simp
    have h₄ : registering fd' (.closed (cfg.reactorOf fd') fd' .read) = 0 := rfl
    unfold places
    dsimp only [Server.goto]
    rw [update_self, h₁, h₂, h₄, update_of_ne (by simp)]
    omega
  · refine places_goto hpc rfl ?_ ?_ ?_ Nat.le.refl ?_ (fun h _ => h) fun _ => rfl
    · cases d <;> nofun
    · cases d <;> nofun
    · cases d with
      | read =>
          rintro ⟨⟩
          exact hsame ⟨rfl, rfl⟩
      | write => nofun
    · intro hnone
      rw [Server.goto_events]
      cases hq : events.slot (.reactor (cfg.reactorOf fd)) .read fd with
      | none => rfl
      | some q =>
          rw [hcl.subset _ _ _ _ hq] at hnone
          cases hnone

/-- `recv` answers: if it is a close, the read event is about to be removed. -/
theorem places_received
    {fd' : Fd} {r : RecvResult}
    (hpc : s.pc (.reactor (cfg.reactorOf fd')) = .recv (cfg.reactorOf fd') fd') :
    places cfg fd
        ((s.note [.received fd' (readn r) (packed fd' r)]).goto
          (.reactor (cfg.reactorOf fd')) (.received (cfg.reactorOf fd') fd' r)) ≤
      places cfg fd s := by
  have hplain : (Pc.received (cfg.reactorOf fd') fd' r).hands ≠ some fd ∧
      (Pc.received (cfg.reactorOf fd') fd' r).registers ≠ some fd := by
    rcases Pc.received_cases (cfg.reactorOf fd') fd' r with
      ⟨-, h⟩ | ⟨-, h⟩ | ⟨-, -, h⟩ <;>
    rw [h] <;> exact ⟨nofun, nofun⟩
  have hnew : closeSeen fd [.received fd' (readn r) (packed fd' r)] = true →
      (Pc.received (cfg.reactorOf fd') fd' r).removes = some fd := by
    intro h
    obtain ⟨d, hmem⟩ := closeSeen_iff.mp h
    simp only [List.mem_singleton, Note.received.injEq] at hmem
    obtain ⟨rfl, hn, -⟩ := hmem
    rw [Pc.received, if_pos hn.symm]
    rfl
  refine places_goto hpc rfl hplain.1 (fun h => absurd h hplain.2) nofun Nat.le.refl id
    ?_ ?_
  · intro h hne
    rw [Server.goto_log, Server.note_log, closeSeen_append, Bool.or_eq_true] at h
    exact h.resolve_right fun h => hne (hnew h)
  · intro ht
    have hfd : fd' ≠ fd := fun h => ht (by rw [h])
    exact closeSeen_append_of_false (by simp [closeSeen, hfd])

/-- `accept` puts the connection in its first place. -/
theorem places_accepted
    {pc₀ : Pc}
    (cfg : Cfg) (fd fd' : Fd)
    (backlog : Source Unit) (isOpen : Fd → Bool)
    (hpc : s.pc .master = pc₀)
    (hremoves : pc₀.removes = none) :
    places cfg fd
        (({ s with backlog, isOpen }.note [.accepted fd']).goto .master (.handOff fd')) ≤
      places cfg fd s + if fd' = fd then 1 else 0 := by
  have hseen : closeSeen fd (s.log ++ [.accepted fd']) = closeSeen fd s.log :=
    closeSeen_append_of_false rfl
  by_cases hfd : fd' = fd
  · subst hfd
    have h₁ : handing fd' (.handOff fd') = 1 := if_pos rfl
    unfold places
    dsimp only [Server.goto, Server.note]
    rw [update_self, h₁, update_of_ne (by simp), hseen, if_pos rfl]
    omega
  · rw [if_neg hfd]
    refine places_goto hpc rfl ?_ nofun (by simp [hremoves]) Nat.le.refl id
      (fun h _ => hseen ▸ h) fun _ => hseen
    rintro ⟨⟩
    exact hfd rfl

theorem onePlace_ebSrvNew : OnePlace cfg fd (ebSrvNew cfg) where
  one := Nat.zero_le _
  fresh := fun _ => rfl

/-- Steps that accept nothing. -/
theorem OnePlace.keep
    (h : OnePlace cfg fd s)
    (hle : places cfg fd s' ≤ places cfg fd s)
    (hlog : ∃ notes, s'.log = s.log ++ notes) :
    OnePlace cfg fd s' := by
  obtain ⟨notes, hlog⟩ := hlog
  refine ⟨hle.trans h.one, fun hnot => ?_⟩
  have hzero := h.fresh fun hacc => hnot (hlog ▸ hacc.append)
  omega

/-- A connection that is accepted was nowhere before: its descriptor was not
open. -/
theorem OnePlace.accepted
    {fd' : Fd} {backlog : Source Unit} {isOpen : Fd → Bool} {pc₀ : Pc}
    (h : OnePlace cfg fd s)
    (hdesc : Descriptors cfg s)
    (hpc : s.pc .master = pc₀)
    (hremoves : pc₀.removes = none)
    (hopen : s.isOpen fd' = false) :
    OnePlace cfg fd
      (({ s with backlog, isOpen }.note [.accepted fd']).goto .master (.handOff fd')) := by
  have hle := places_accepted cfg fd fd' backlog isOpen hpc hremoves
  by_cases he : fd' = fd
  · subst he
    have hzero := h.fresh fun hacc => by
      rw [(hdesc.accepted fd' hacc).2] at hopen
      cases hopen
    rw [if_pos rfl, hzero] at hle
    refine ⟨hle, fun hnot => absurd ?_ hnot⟩
    exact List.mem_append_right _ List.mem_cons_self
  · rw [if_neg he] at hle
    exact h.keep hle ⟨_, rfl⟩

/-- One move. -/
theorem OnePlace.move
    (h : OnePlace cfg fd s)
    (hfd : cfg.opened fd = false)
    (halone : MasterAlone cfg s)
    (horderly : Orderly cfg s)
    (hdesc : Descriptors cfg s)
    (hread : ReadSide s)
    (hgood : RemovalsGranted s a)
    (hmove : Move cfg s a s') :
    OnePlace cfg fd s' := by
  have htables := horderly.tables
  have hacts : ∀ {t pc}, s.pc t = pc → pc.ActsFor cfg t := fun hpc => hpc ▸ horderly.acts _
  have hkeep : places cfg fd s' ≤ places cfg fd s → OnePlace cfg fd s' :=
    fun hle => h.keep hle hmove.log_append
  cases hmove with
  | arrived => exact hkeep (places_stay rfl rfl id rfl)
  | @booted t _ p _ hrun hpc hop =>
      refine hkeep (places_quiet hpc rfl (fun _ => rfl) rfl (fun hnone => ?_) rfl (.inl rfl) rfl)
      dsimp only
      rw [hop.slot, if_neg]
      · exact hnone
      · rintro ⟨-, -, -, he, -⟩
        have hopened : cfg.opened (bootEvent cfg t).fd = true := by
          cases t with
          | master => exact cfg.sfd_opened
          | reactor i => exact cfg.pipe_opened i hrun
        rw [← Fin.ext he, hfd] at hopened
        cases hopened
  | waited _ hpc _ hcol =>
      exact hkeep (places_quiet hpc rfl (fun _ => by simp) rfl
        (fun hnone => (hcol.slot _ _ _).trans hnone) rfl (.inl rfl) rfl)
  | drained _ hpc =>
      exact hkeep (places_quiet hpc rfl (fun _ => rfl) rfl id rfl (.inl rfl) rfl)
  | ignored _ _ htk =>
      exact hkeep (places_stay rfl rfl (fun hnone => (htk.slot _ _ _).trans hnone) rfl)
  | writable _ _ htk =>
      exact hkeep (places_stay rfl rfl (fun hnone => (htk.slot _ _ _).trans hnone)
        (closeSeen_append_of_false closeSeen_callback))
  | started _ hpc htk _ hstart =>
      obtain ⟨hhands, hregisters⟩ := Pc.plain_start hstart
      exact hkeep (places_quiet hpc rfl (fun _ => rfl) rfl
        (fun hnone => (htk.slot _ _ _).trans hnone) hhands (.inl hregisters) rfl)
  | acceptFailed _ hpc =>
      exact hkeep (places_quiet hpc rfl (fun _ => rfl) rfl id rfl (.inl rfl) rfl)
  | rejected _ hpc =>
      exact hkeep (places_quiet hpc rfl (fun _ => rfl) (closeSeen_append_of_false rfl) id rfl
        (.inl rfl) rfl)
  | accepted _ hpc _ _ hopen _ =>
      obtain rfl := halone.eq_master hpc rfl
      exact h.accepted hdesc hpc rfl hopen
  | handedOff _ hpc =>
      obtain rfl := halone.eq_master hpc rfl
      exact hkeep (places_handedOff hpc)
  | handOffFailed _ hpc =>
      exact hkeep (places_quiet hpc rfl (fun _ => rfl) rfl id rfl (.inl rfl) rfl)
  | announced _ hpc =>
      exact hkeep (places_quiet hpc rfl (fun _ => rfl)
        (closeSeen_append_of_false closeSeen_callback) id rfl (.inl rfl) rfl)
  | counted _ hpc =>
      exact hkeep (places_quiet hpc rfl (fun _ => rfl) rfl id rfl (.inl rfl) rfl)
  | pipeEmpty _ hpc =>
      exact hkeep (places_quiet hpc rfl (fun _ => rfl) rfl id rfl (.inl rfl) rfl)
  | pipeTaken _ hpc hitems =>
      have ht := hacts hpc
      subst ht
      exact hkeep (places_pipeTaken hpc hitems)
  | exhausted _ hpc =>
      exact hkeep (places_quiet hpc rfl (fun _ => rfl) rfl id rfl (.inl rfl) rfl)
  | opened _ hpc hop =>
      have ht := hacts hpc
      obtain ⟨-, rfl⟩ := hdesc.at_index hpc rfl rfl
      subst ht
      exact hkeep (places_opened hpc hop)
  | @openFailed _ _ d _ _ _ _ _ hpc hop =>
      refine hkeep (places_quiet hpc rfl (fun _ => rfl) rfl (fun hnone => ?_) rfl ?_ rfl)
      · dsimp only
        rw [hop.slot]
        simpa using hnone
      · cases d <;> exact .inr rfl
  | @undone _ _ d _ _ _ _ _ hpc hput =>
      refine hkeep (places_quiet hpc rfl (fun _ => rfl) rfl (fun hnone => ?_) ?_ ?_ rfl)
      · simpa only [EventState.slot, hput.base] using hnone
      · cases d <;> rfl
      · cases d <;> exact .inl rfl
  | received _ hpc =>
      have ht := hacts hpc
      obtain ⟨-, rfl⟩ := hdesc.at_index hpc rfl rfl
      subst ht
      exact hkeep (places_received hpc)
  | @closedNone t _ d i fd' _ hpc hslot =>
      have ht := hacts hpc
      cases d with
      | read =>
          -- the event of a callback that runs is registered
          obtain ⟨p, hp, -⟩ := hread.current t fd' (by rw [hpc]; rfl)
          rw [ht, hslot] at hp
          cases hp
      | write =>
          exact hkeep (places_quiet hpc rfl (fun _ => rfl) rfl id rfl (.inl rfl) rfl)
  | closed _ hpc hslot hcl hgrant =>
      have ht := hacts hpc
      obtain rfl := htables.granted hpc hslot hgood hgrant
      obtain ⟨-, rfl⟩ := hdesc.at_index hpc rfl rfl
      subst ht
      exact hkeep (places_closed htables hpc hslot hcl)
  | refused _ hpc =>
      exact hkeep (places_quiet hpc rfl (fun _ => rfl) (closeSeen_append_of_false rfl) id rfl
        (.inl rfl) rfl)
  | pushed _ hpc =>
      exact hkeep (places_quiet hpc rfl (fun _ => rfl) (closeSeen_append_of_false rfl) id rfl
        (.inl rfl) rfl)
  | notified _ hpc =>
      exact hkeep (places_quiet hpc rfl (fun _ => rfl) rfl id rfl (.inl rfl) rfl)
  | woke => exact hkeep (places_stay rfl rfl id rfl)
  | handled =>
      refine hkeep (places_stay rfl rfl id (closeSeen_append_of_false ?_))
      exact closeSeen_callback
  | emptied => exact hkeep (places_stay rfl rfl id rfl)

/-- In every run with the removals granted. -/
theorem onePlace_of_reach
    {good : Server → Action → Prop}
    (hfd : cfg.opened fd = false)
    (hgranted : ∀ s a, good s a → RemovalsGranted s a)
    (hreach : Reach (step cfg) good (ebSrvNew cfg) s) :
    OnePlace cfg fd s := by
  refine hreach.invariant_of
    (J := fun s => MasterAlone cfg s ∧ Orderly cfg s ∧ Descriptors cfg s ∧ ReadSide s)
    (fun s hr => ⟨masterAlone_of_reach hr, orderly_of_reach hgranted hr,
      descriptors_of_reach hr, readSide_of_reach hgranted hr⟩) onePlace_ebSrvNew ?_
  rintro s a s' ⟨halone, horderly, hdesc, hread⟩ - h hgood hstep
  exact h.move hfd halone horderly hdesc hread (hgranted s a hgood) (step_move hstep)

/-- A connection that is read has not been closed. -/
theorem OnePlace.not_closeSeen
    {i : Nat}
    (h : OnePlace cfg fd s)
    (horderly : Orderly cfg s)
    (hdesc : Descriptors cfg s)
    (hread : ReadSide s)
    (hpc : s.pc t = .recv i fd) :
    closeSeen fd s.log = false := by
  have ht : t = .reactor i := by
    have hacts := horderly.acts t
    rwa [hpc] at hacts
  obtain ⟨-, rfl⟩ := hdesc.at_index hpc rfl rfl
  obtain ⟨p, hslot, -⟩ := hread.current t fd (by rw [hpc]; rfl)
  subst ht
  have h₁ : registered (s.events.slot (.reactor (cfg.reactorOf fd)) .read fd) = 1 := by
    rw [hslot]
    rfl
  have hone := h.one
  unfold places at hone
  rw [h₁, hpc] at hone
  cases hseen : closeSeen fd s.log with
  | false => rfl
  | true =>
      have h₂ : spent fd true (.recv (cfg.reactorOf fd) fd) = 1 := rfl
      rw [hseen, h₂] at hone
      omega

end Places

end Ebot
