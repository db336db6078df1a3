import Ebot.ServerMoves

/-!
# Descriptors of connections

Where the descriptors in the server come from.  `accept` answers with a
descriptor that is not open, so what it gives is neither the listening socket
nor the end of a pipe, and no descriptor is accepted twice.  Whatever a thread,
a pipe or an event of a connection names was accepted, and it is with the
reactor that the descriptor is routed to.
-/

namespace Ebot

open Function EdgeSource EventState Transition

/-- The descriptor of the connection a thread deals with. -/
def Pc.connection : Pc → Option Fd
  | .handOff fd | .announce fd | .opening _ _ fd | .undoing _ _ fd _ | .recv _ fd
  | .closing _ _ fd | .pushing fd _ _ => some fd
  | .boot | .idle | .dispatch | .accept | .count | .pipeRead _ | .notify _ => none

/-- The reactor for which it deals with it. -/
def Pc.index : Pc → Option Nat
  | .opening _ i _ | .undoing _ i _ _ | .recv i _ | .closing _ i _ => some i
  | .boot | .idle | .dispatch | .accept | .handOff _ | .announce _ | .count
  | .pipeRead _ | .pushing _ _ _ | .notify _ => none

/-- The events agree in all but the queued flag. -/
structure Event.Agrees {κ α : Type} (e e' : Event κ α) : Prop where
  kide : e.kide = e'.kide
  fd : e.fd = e'.fd
  cb : e.cb = e'.cb
  arg : e.arg = e'.arg

/-- The descriptor was accepted. -/
def Accepted (log : List Note) (fd : Fd) : Prop := .accepted fd ∈ log

/-- A thread may be here: the connection it deals with was accepted and routed
to the reactor it acts for. -/
structure Pc.Routed (cfg : Cfg) (log : List Note) (pc : Pc) : Prop where
  accepted : ∀ fd, pc.connection = some fd → Accepted log fd
  index : ∀ fd i, pc.connection = some fd → pc.index = some i → i = cfg.reactorOf fd

/-- The event was never filled in, is a thread's own, or is one of a
connection. -/
def Event.Proper (cfg : Cfg) (log : List Note) (e : SrvEvent) : Prop :=
  e.cb = none ∨ (∃ t, e.Agrees (bootEvent cfg t)) ∨
    ∃ d fd, Accepted log fd ∧ e.Agrees (clientEvent d fd (cfg.reactorOf fd))

/-- Everything that names a connection names an accepted descriptor. -/
structure Descriptors (cfg : Cfg) (s : Server) : Prop where
  opened : ∀ fd, cfg.opened fd = true → s.isOpen fd = true
  accepted : ∀ fd, Accepted s.log fd → cfg.opened fd = false ∧ s.isOpen fd = true
  pcs : ∀ t, (s.pc t).Routed cfg s.log
  pipe : ∀ i fd, fd ∈ (s.pipe i).items → Accepted s.log fd ∧ i = cfg.reactorOf fd
  ev : ∀ p, (s.events.ev p).Proper cfg s.log

section Events

variable {cfg : Cfg} {log notes : List Note} {e e' : SrvEvent} {fd : Fd} {i : Nat}
variable {E E' : EventState} {p q : Nat} {t : Tid} {d : Dir} {ret : Int}

theorem Accepted.append
    (h : Accepted log fd) :
    Accepted (log ++ notes) fd :=
  List.mem_append_left _ h

theorem Event.Proper.append
    (h : e.Proper cfg log) :
    e.Proper cfg (log ++ notes) := by
  rcases h with hnone | hboot | ⟨d, fd, hacc, he⟩
  · exact .inl hnone
  · exact .inr (.inl hboot)
  · exact .inr (.inr ⟨d, fd, hacc.append, he⟩)

theorem Event.Agrees.trans
    {e₁ e₂ e₃ : SrvEvent}
    (h : e₁.Agrees e₂)
    (h' : e₂.Agrees e₃) :
    e₁.Agrees e₃ :=
  ⟨h.kide.trans h'.kide, h.fd.trans h'.fd, h.cb.trans h'.cb, h.arg.trans h'.arg⟩

theorem Event.Proper.agrees
    (h : e.Proper cfg log)
    (he : e'.Agrees e) :
    e'.Proper cfg log := by
  rcases h with hnone | ⟨t, hboot⟩ | ⟨d, fd, hacc, hclient⟩
  · exact .inl (he.cb.trans hnone)
  · exact .inr (.inl ⟨t, he.trans hboot⟩)
  · exact .inr (.inr ⟨d, fd, hacc, he.trans hclient⟩)

theorem SameContent.agrees
    (h : SameContent E E') :
    (E'.ev p).Agrees (E.ev p) :=
  ⟨h.kide p, h.fd p, h.cb p, h.arg p⟩

/-- The events after one was opened. -/
theorem EventState.Opened.proper
    (hop : Opened E t d e p ret E')
    (h : ∀ q, (E.ev q).Proper cfg log)
    (he : e.Proper cfg log) :
    (E'.ev q).Proper cfg log := by
  rw [hop.ev]
  by_cases hq : q = p
  · rw [hq, update_self]
    exact he
  · rw [update_of_ne hq]
    exact h q

theorem bootEvent_proper : (bootEvent cfg t).Proper cfg log :=
  .inr (.inl ⟨t, ⟨rfl, rfl, rfl, rfl⟩⟩)

theorem clientEvent_proper
    (h : Accepted log fd) :
    (clientEvent d fd (cfg.reactorOf fd)).Proper cfg log :=
  .inr (.inr ⟨d, fd, h, ⟨rfl, rfl, rfl, rfl⟩⟩)

/-- The callbacks of a connection are those of its two events. -/
theorem Event.Proper.client
    (h : e.Proper cfg log)
    (hcb : e.cb = some (clientCallback d)) :
    Accepted log e.fd ∧ e.arg = .reactor (cfg.reactorOf e.fd) ∧ e.IsFor d := by
  rcases h with hnone | ⟨t, he⟩ | ⟨d', fd, hacc, he⟩
  · rw [hnone] at hcb
    cases hcb
  · have hcb' := he.cb.symm.trans hcb
    cases t <;> cases d <;> simp [bootEvent, eventRead, eventOf, clientCallback] at hcb'
  · have hcb' := he.cb.symm.trans hcb
    have hd : d' = d := by
      cases d' <;> cases d <;> simp [clientEvent, eventOf, clientCallback] at hcb' ⊢
    subst hd
    have hfd : e.fd = fd := he.fd
    rw [hfd]
    exact ⟨hacc, he.arg, he.kide⟩

end Events

section Steps

variable {cfg : Cfg} {s s' : Server} {a : Action} {log notes : List Note}

theorem descriptors_ebSrvNew : Descriptors cfg (ebSrvNew cfg) where
  opened := fun fd h => h
  accepted := by
    intro fd h
    cases h
  pcs := by
    intro t
    constructor
    · intro fd h
      cases h
    · intro fd i h
      cases h
  pipe := by
    intro i fd h
    cases h
  ev := fun p => .inl rfl

theorem Pc.Routed.append
    {pc : Pc}
    (h : pc.Routed cfg log) :
    pc.Routed cfg (log ++ notes) :=
  ⟨fun fd hfd => (h.accepted fd hfd).append, h.index⟩

/-- A place that deals with no connection. -/
theorem Pc.Routed.of_none
    {pc : Pc}
    (h : pc.connection = none) :
    pc.Routed cfg log := by
  constructor
  · intro fd hfd
    rw [h] at hfd
    cases hfd
  · intro fd i hfd
    rw [h] at hfd
    cases hfd

/-- A place that deals with an accepted connection. -/
theorem Pc.Routed.of_accepted
    {pc : Pc} {fd : Fd}
    (h : Accepted log fd)
    (hpc : pc.connection = some fd ∨ pc.connection = none)
    (hi : pc.index = some (cfg.reactorOf fd) ∨ pc.index = none) :
    pc.Routed cfg log := by
  rcases hpc with hpc | hpc
  · constructor
    · intro fd' hfd'
      rw [hpc] at hfd'
      cases hfd'
      exact h
    · intro fd' i hfd' hi'
      rw [hpc] at hfd'
      cases hfd'
      rcases hi with hi | hi
      · rw [hi] at hi'
        cases hi'
        rfl
      · rw [hi] at hi'
        cases hi'
  · exact .of_none hpc

theorem Pc.opened_connection
    (i : Nat) (fd : Fd) (d : Dir) :
    ((Pc.opened i fd d).connection = some fd ∨ (Pc.opened i fd d).connection = none) ∧
      ((Pc.opened i fd d).index = some i ∨ (Pc.opened i fd d).index = none) := by
  cases d with
  | read => exact ⟨.inl rfl, .inl rfl⟩
  | write => exact ⟨.inr rfl, .inr rfl⟩

theorem Pc.closed_connection
    (i : Nat) (fd : Fd) (d : Dir) :
    ((Pc.closed i fd d).connection = some fd ∨ (Pc.closed i fd d).connection = none) ∧
      ((Pc.closed i fd d).index = some i ∨ (Pc.closed i fd d).index = none) := by
  cases d with
  | read => exact ⟨.inl rfl, .inl rfl⟩
  | write => exact ⟨.inl rfl, .inr rfl⟩

theorem Pc.received_connection
    (i : Nat) (fd : Fd) (r : RecvResult) :
    ((Pc.received i fd r).connection = some fd ∨
        (Pc.received i fd r).connection = none) ∧
      ((Pc.received i fd r).index = some i ∨ (Pc.received i fd r).index = none) := by
  rcases Pc.received_cases i fd r with ⟨-, h⟩ | ⟨-, h⟩ | ⟨-, -, h⟩ <;> rw [h]
  · exact ⟨.inl rfl, .inl rfl⟩
  · exact ⟨.inr rfl, .inr rfl⟩
  · exact ⟨.inl rfl, .inr rfl⟩

/-- A callback that starts with a descriptor is the read callback of a
connection. -/
theorem Pc.routed_start
    {e : SrvEvent} {cb : Callback} {pc : Pc}
    (he : e.Proper cfg log)
    (hcb : e.callback = some cb)
    (h : Pc.start e.fd cb e.arg = some pc) :
    pc.Routed cfg log := by
  have hcb' := Event.cb_of_callback hcb
  cases harg : e.arg with
  | srv =>
      rw [harg] at h
      cases cb <;> cases h
      exact .of_none rfl
  | reactor i =>
      rw [harg] at h
      cases cb with
      | ebot_srv_accept => cases h
      | reactor_pool_pipe_callback =>
          cases h
          exact .of_none rfl
      | reactor_pool_client_read_callback =>
          cases h
          obtain ⟨hacc, hi, -⟩ := he.client (d := .read) hcb'
          rw [harg] at hi
          cases hi
          exact .of_accepted hacc (.inl rfl) (.inl rfl)
      | reacto_pool_client_write_callback => cases h

/-- The connection a thread deals with was accepted. -/
theorem Descriptors.at_connection
    {t : Tid} {pc : Pc} {fd : Fd}
    (h : Descriptors cfg s)
    (hpc : s.pc t = pc)
    (hfd : pc.connection = some fd) :
    Accepted s.log fd :=
  (h.pcs t).accepted fd (hpc ▸ hfd)

/-- A thread deals with it for the reactor it is routed to. -/
theorem Descriptors.at_index
    {t : Tid} {pc : Pc} {fd : Fd} {i : Nat}
    (h : Descriptors cfg s)
    (hpc : s.pc t = pc)
    (hfd : pc.connection = some fd)
    (hi : pc.index = some i) :
    Accepted s.log fd ∧ i = cfg.reactorOf fd :=
  ⟨h.at_connection hpc hfd, (h.pcs t).index fd i (hpc ▸ hfd) (hpc ▸ hi)⟩

/-- Steps that accept nothing. -/
theorem Descriptors.keep
    (h : Descriptors cfg s)
    (hlog : s'.log = s.log ++ notes)
    (hopen : s'.isOpen = s.isOpen)
    (hnotes : ∀ fd, .accepted fd ∉ notes)
    (hpcs : ∀ t, (s'.pc t).Routed cfg s.log)
    (hpipe : ∀ i fd, fd ∈ (s'.pipe i).items →
      fd ∈ (s.pipe i).items ∨ Accepted s.log fd ∧ i = cfg.reactorOf fd)
    (hev : ∀ p, (s'.events.ev p).Proper cfg s.log) :
    Descriptors cfg s' := by
  constructor
  · rw [hopen]
    exact h.opened
  · intro fd hacc
    rw [hopen]
    refine h.accepted fd ?_
    unfold Accepted at hacc
    rw [hlog, List.mem_append] at hacc
    exact hacc.resolve_right (hnotes fd)
  · intro t
    rw [hlog]
    exact (hpcs t).append
  · intro i fd hfd
    rw [hlog]
    rcases hpipe i fd hfd with hold | hnew
    · exact (h.pipe i fd hold).imp_left Accepted.append
    · exact hnew.imp_left Accepted.append
  · intro p
    rw [hlog]
    exact (hev p).append

/-- `accept` gives a descriptor that was not open. -/
theorem Descriptors.accept
    {t : Tid} {fd : Fd} {backlog : Source Unit}
    (h : Descriptors cfg s)
    (hopen : s.isOpen fd = false) :
    Descriptors cfg
      (({ s with backlog, isOpen := update s.isOpen fd true }.note
        [.accepted fd]).goto t (.handOff fd)) := by
  constructor
  · intro fd' hfd'
    by_cases he : fd' = fd
    · simp [he]
    · simpa [update_of_ne he] using h.opened fd' hfd'
  · intro fd' hacc
    rcases List.mem_append.mp hacc with hacc | hacc
    · obtain ⟨hnew, hold⟩ := h.accepted fd' hacc
      refine ⟨hnew, ?_⟩
      by_cases he : fd' = fd
      · simp [he]
      · simpa [update_of_ne he] using hold
    · cases List.mem_singleton.mp hacc
      refine ⟨?_, by simp⟩
      cases hnew : cfg.opened fd with
      | false => rfl
      | true =>
          rw [h.opened fd hnew] at hopen
          cases hopen
  · refine Server.forall_pc_goto (P := fun _ pc => pc.Routed cfg _)
      (fun t' _ => (h.pcs t').append) ?_
    refine .of_accepted (List.mem_append_right _ List.mem_cons_self) (.inl rfl) (.inr rfl)
  · exact fun i fd' hfd' => (h.pipe i fd' hfd').imp_left Accepted.append
  · exact fun p => (h.ev p).append

/-- One move. -/
theorem Descriptors.move
    (h : Descriptors cfg s)
    (hmove : Move cfg s a s') :
    Descriptors cfg s' := by
  have hlog : s.log = s.log ++ [] := by simp
  have hnil : ∀ fd, Note.accepted fd ∉ ([] : List Note) := by simp
  have hpipe : ∀ i fd, fd ∈ (s.pipe i).items →
      fd ∈ (s.pipe i).items ∨ Accepted s.log fd ∧ i = cfg.reactorOf fd :=
    fun _ _ => .inl
  have hgoto : ∀ {t pc}, Pc.Routed cfg s.log pc →
      ∀ t', ((s.goto t pc).pc t').Routed cfg s.log :=
    fun hpc => Server.forall_pc_goto (P := fun _ pc => pc.Routed cfg s.log)
      (fun t' _ => h.pcs t') hpc
  have hfree : ∀ {t pc}, pc.connection = none →
      ∀ t', ((s.goto t pc).pc t').Routed cfg s.log :=
    fun hpc => hgoto (.of_none hpc)
  have hsame : ∀ {E : EventState}, SameContent s.events E →
      ∀ p, (E.ev p).Proper cfg s.log :=
    fun hc p => (h.ev p).agrees hc.agrees
  have hcallback : ∀ {c e stream fd}, Note.accepted fd ∉ callback cfg c e stream := by
    intro c e stream fd hmem
    cases eq_called_of_mem_callback hmem
  cases hmove with
  | arrived => exact h.keep hlog rfl hnil h.pcs hpipe h.ev
  | booted _ _ hop =>
      exact h.keep hlog rfl hnil (hfree rfl) hpipe
        fun p => hop.proper h.ev bootEvent_proper
  | waited _ _ _ hcol =>
      exact h.keep hlog rfl hnil (hfree rfl) (fun i fd hfd => .inl (by simpa using hfd))
        (hsame hcol.content)
  | drained => exact h.keep hlog rfl hnil (hfree rfl) hpipe h.ev
  | ignored _ _ htk _ => exact h.keep hlog rfl hnil h.pcs hpipe (hsame htk.content)
  | started _ _ htk hcb hstart =>
      exact h.keep hlog rfl hnil
        (hgoto (Pc.routed_start (hsame htk.content _) hcb hstart)) hpipe
        (hsame htk.content)
  | writable _ _ htk _ _ =>
      exact h.keep rfl rfl (fun _ => hcallback) h.pcs hpipe (hsame htk.content)
  | acceptFailed => exact h.keep hlog rfl hnil (hfree rfl) hpipe h.ev
  | rejected => exact h.keep rfl rfl (by simp) (hfree rfl) hpipe h.ev
  | accepted _ _ _ _ hopen _ => exact h.accept hopen
  | @handedOff t _ fd _ hpc _ =>
      have hacc := h.at_connection hpc rfl
      refine h.keep hlog rfl hnil (hgoto (.of_accepted hacc (.inl rfl) (.inr rfl)))
        (fun i fd' hfd' => ?_) h.ev
      rcases mem_update_arrive hfd' with hold | ⟨rfl, rfl⟩
      · exact .inl hold
      · exact .inr ⟨hacc, rfl⟩
  | @handOffFailed t _ fd _ hpc _ =>
      have hacc := h.at_connection hpc rfl
      exact h.keep hlog rfl hnil (hgoto (.of_accepted hacc (.inl rfl) (.inr rfl)))
        hpipe h.ev
  | announced => exact h.keep rfl rfl (fun _ => hcallback) (hfree rfl) hpipe h.ev
  | counted => exact h.keep hlog rfl hnil (hfree rfl) hpipe h.ev
  | pipeEmpty => exact h.keep hlog rfl hnil (hfree rfl) hpipe h.ev
  | @pipeTaken t _ i fd rest _ _ hitems =>
      obtain ⟨hacc, rfl⟩ := h.pipe i fd (hitems ▸ List.mem_cons_self)
      exact h.keep hlog rfl hnil (hgoto (.of_accepted hacc (.inl rfl) (.inl rfl)))
        (fun i' fd' hfd' => .inl (mem_update_leave hitems hfd')) h.ev
  | exhausted => exact h.keep hlog rfl hnil (hfree rfl) hpipe h.ev
  | @opened t _ d i fd _ _ _ hpc hop =>
      obtain ⟨hacc, rfl⟩ := h.at_index hpc rfl rfl
      obtain ⟨hconn, hindex⟩ := Pc.opened_connection (cfg.reactorOf fd) fd d
      exact h.keep hlog rfl hnil (hgoto (.of_accepted hacc hconn hindex)) hpipe
        fun p => hop.proper h.ev (clientEvent_proper hacc)
  | @openFailed t _ d i fd _ _ _ hpc hop =>
      obtain ⟨hacc, rfl⟩ := h.at_index hpc rfl rfl
      exact h.keep hlog rfl hnil (hgoto (.of_accepted hacc (.inl rfl) (.inl rfl))) hpipe
        fun p => hop.proper h.ev (clientEvent_proper hacc)
  | @undone t _ d i fd _ _ _ hpc hput =>
      obtain ⟨hacc, rfl⟩ := h.at_index hpc rfl rfl
      obtain ⟨hconn, hindex⟩ := Pc.opened_connection (cfg.reactorOf fd) fd d
      refine h.keep hlog rfl hnil (hgoto (.of_accepted hacc hconn hindex)) hpipe fun p => ?_
      simpa only [Server.goto_events, hput.ev] using h.ev p
  | @received t env i fd _ hpc =>
      obtain ⟨hacc, rfl⟩ := h.at_index hpc rfl rfl
      obtain ⟨hconn, hindex⟩ := Pc.received_connection (cfg.reactorOf fd) fd env.recv
      exact h.keep rfl rfl (by simp) (hgoto (.of_accepted hacc hconn hindex)) hpipe h.ev
  | @closedNone t _ d i fd _ hpc =>
      obtain ⟨hacc, rfl⟩ := h.at_index hpc rfl rfl
      obtain ⟨hconn, hindex⟩ := Pc.closed_connection (cfg.reactorOf fd) fd d
      exact h.keep hlog rfl hnil (hgoto (.of_accepted hacc hconn hindex)) hpipe h.ev
  | @closed t _ d i fd _ _ _ _ hpc _ hcl =>
      obtain ⟨hacc, rfl⟩ := h.at_index hpc rfl rfl
      obtain ⟨hconn, hindex⟩ := Pc.closed_connection (cfg.reactorOf fd) fd d
      refine h.keep hlog rfl hnil (hgoto (.of_accepted hacc hconn hindex)) hpipe fun p => ?_
      simpa only [Server.goto_events, hcl.ev] using h.ev p
  | refused => exact h.keep rfl rfl (by simp) (hfree rfl) hpipe h.ev
  | pushed => exact h.keep rfl rfl (by simp) (hfree rfl) hpipe h.ev
  | notified => exact h.keep hlog rfl hnil (hfree rfl) hpipe h.ev
  | woke => exact h.keep hlog rfl hnil h.pcs hpipe h.ev
  | handled =>
      refine h.keep rfl rfl (fun fd hmem => ?_) h.pcs hpipe h.ev
      rcases List.mem_cons.mp hmem with he | hmem
      · cases he
      · exact hcallback hmem
  | emptied => exact h.keep hlog rfl hnil h.pcs hpipe h.ev

theorem descriptors_of_reach
    {good : Server → Action → Prop}
    (hreach : Reach (step cfg) good (ebSrvNew cfg) s) :
    Descriptors cfg s :=
  hreach.invariant descriptors_ebSrvNew fun _ _ _ h _ hstep => h.move (step_move hstep)

end Steps

end Ebot
