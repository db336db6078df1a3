import Ebot.Callbacks
import Ebot.Library.Channels

/-!
# Connections as channels

For the application a connection is a channel: what `readn` takes off the client
socket comes out at `EB_RECV` and `EB_CLOSE`.  The reactor, the ring of the unit and
the worker together implement a family of such channels, one for each descriptor, that
keep the order and invent nothing; what they lose, a refused push, is the newest item
on its way.
-/

namespace Ebot

open Function EdgeSource EventState Transition History

/-- What a history entry means for the channels.  A `readn` that returned 0 puts an
item of no bytes into the channel, as the close notice does. -/
def Note.event : Note → Option (Channels.Event Int (Int × List UInt8))
  | .received fd n d => if n = -1 then none else some (.taken (fd : Nat) d.content)
  | .refused _ fd _ d => some (.lost (fd : Nat) d.content)
  | .called (.worker _) e stream =>
      if e = .EB_RECV ∨ e = .EB_CLOSE then some (.passed stream.fd stream.content) else none
  | _ => none

/-- What a history means for the channels. -/
def channelEvents (log : List Note) : List (Channels.Event Int (Int × List UInt8)) :=
  log.filterMap Note.event

/-- What a thread at this place has taken off a socket and not yet tried to push. -/
def underway (fd : Fd) : Pc → List PackData
  | .closing _ _ fd' => if fd' = fd then [.blank (fd : Nat)] else []
  | .pushing fd' _ d => if fd' = fd then [d] else []
  | _ => []

/-- The packets in the ring of a unit, by what was pushed and handled. -/
def pendingOf (u : Nat) (log : List Note) : List PackData :=
  (pushedOf u log).drop (handledOf u log).length

/-- The packets of a descriptor between its socket and the application: those in the
ring, and the one its reactor holds. -/
def onTheWay (cfg : Cfg) (fd : Fd) (s : Server) : List PackData :=
  (pendingOf (cfg.unitOf fd) s.log).filter (fun d => d.fd = ((fd : Nat) : Int)) ++
    underway fd (s.pc (.reactor (cfg.reactorOf fd)))

/-- The channels hold what is on the way. -/
def Carries (cfg : Cfg) (s : Server) (c : Channels.State Int (Int × List UInt8)) : Prop :=
  ∀ fd : Fd, c ((fd : Nat) : Int) = (onTheWay cfg fd s).map PackData.content

section Steps

variable {cfg : Cfg} {s s' : Server} {a : Action} {fd : Fd} {t : Tid}
variable {c : Channels.State Int (Int × List UInt8)}

theorem channelEvents_append
    {log notes : List Note} :
    channelEvents (log ++ notes) = channelEvents log ++ channelEvents notes :=
  List.filterMap_append

theorem pendingOf_eq
    {u : Nat} {log : List Note} {pending : List PackData}
    (h : pushedOf u log = handledOf u log ++ pending) :
    pendingOf u log = pending := by
  rw [pendingOf, h, List.drop_left]

/-- Entries that are not about the factory leave what is pending. -/
theorem pendingOf_quiet
    {u : Nat} {log notes : List Note}
    (hnotes : ∀ x ∈ notes, x.ofFactory = false) :
    pendingOf u (log ++ notes) = pendingOf u log := by
  obtain ⟨hpushed, hhandled, -⟩ := projections_of_not_ofFactory (u := u) hnotes
  simp only [pendingOf, pushedOf_append, handledOf_append, hpushed, hhandled, List.append_nil]

theorem underway_start
    {fd' : Fd} {cb : Callback} {arg : Arg} {pc : Pc}
    (h : Pc.start fd' cb arg = some pc) :
    underway fd pc = [] := by
  cases cb <;> cases arg <;> cases h <;> rfl

theorem underway_opened
    {fd' : Fd} {i : Nat} {d : Dir} :
    underway fd (Pc.opened i fd' d) = [] := by
  cases d <;> rfl

theorem underway_closed
    {fd' : Fd} {i : Nat} {d : Dir} :
    underway fd (Pc.closed i fd' d) = underway fd (.closing d i fd') := by
  cases d with
  | read => rfl
  | write =>
      by_cases hfd : fd' = fd
      · subst hfd
        rfl
      · simp [underway, Pc.closed, hfd]

/-- A thread goes on without changing what it holds. -/
theorem underway_goto
    {pc : Pc}
    (hpc : underway fd pc = underway fd (s.pc t)) :
    ∀ t', underway fd ((s.goto t pc).pc t') = underway fd (s.pc t') :=
  Server.forall_pc_goto (P := fun t' pc => underway fd pc = underway fd (s.pc t'))
    (fun _ _ => rfl) hpc

/-- After `readn` a thread holds what it has just taken. -/
theorem underway_received
    (fd : Fd) (i : Nat) (r : RecvResult) :
    underway fd (Pc.received i fd r) = [packed fd r] ∧
        Note.event (.received fd (readn r) (packed fd r)) =
          some (.taken ((fd : Nat) : Int) (packed fd r).content) ∨
      underway fd (Pc.received i fd r) = [] ∧
        Note.event (.received fd (readn r) (packed fd r)) = none := by
  rcases Pc.received_cases i fd r with ⟨hclose, h⟩ | ⟨hfail, h⟩ | ⟨hopen, hok, h⟩
  · left
    have hblank : packed fd r = .blank (fd : Nat) := by
      cases r with
      | bytes bs pos fits =>
          simp only [readn] at hclose
          omega
      | _ => rfl
    rw [h]
    simp [underway, Note.event, hclose, hblank]
  · right
    rw [h]
    simp [underway, Note.event, hfail]
  · left
    rw [h]
    simp [underway, Note.event, hok]

/-- What a step must do. -/
def Matches (cfg : Cfg) (s s' : Server) (c : Channels.State Int (Int × List UInt8)) : Prop :=
  ∃ ls c', channelEvents s'.log = channelEvents s.log ++ ls ∧
    Path Channels.Next c ls c' ∧ Carries cfg s' c'

/-- Steps that the channels do not see. -/
theorem Carries.silent
    {notes : List Note}
    (h : Carries cfg s c)
    (hlog : s'.log = s.log ++ notes)
    (hevents : channelEvents notes = [])
    (hfactory : ∀ x ∈ notes, x.ofFactory = false)
    (hpc : ∀ fd t, underway fd (s'.pc t) = underway fd (s.pc t)) :
    Matches cfg s s' c := by
  refine ⟨[], c, ?_, .nil, fun fd => ?_⟩
  · rw [hlog, channelEvents_append, hevents]
  · rw [h fd, onTheWay, onTheWay, hlog, pendingOf_quiet hfactory, hpc]

/-- One event on one channel. -/
theorem Carries.event
    {notes : List Note} {e : Channels.Event Int (Int × List UInt8)}
    {xs : List (Int × List UInt8)}
    (h : Carries cfg s c)
    (fd : Fd)
    (hlog : s'.log = s.log ++ notes)
    (hevents : channelEvents notes = [e])
    (hnext : Channels.Next c e (update c ((fd : Nat) : Int) xs))
    (hself : (onTheWay cfg fd s').map PackData.content = xs)
    (hother : ∀ fd', fd' ≠ fd → onTheWay cfg fd' s' = onTheWay cfg fd' s) :
    Matches cfg s s' c := by
  refine ⟨[e], _, ?_, .single hnext, fun fd' => ?_⟩
  · rw [hlog, channelEvents_append, hevents]
  · by_cases hfd : fd' = fd
    · subst hfd
      rw [update_self, hself]
    · have hne : ((fd' : Nat) : Int) ≠ ((fd : Nat) : Int) := by
        intro he
        exact hfd (Fin.ext (by omega))
      rw [update_of_ne hne, h fd', hother fd' hfd]

/-- A `recv`. -/
theorem Carries.received
    {i : Nat} {r : RecvResult}
    (h : Carries cfg s c)
    (hpc : s.pc t = .recv i fd)
    (ht : t = .reactor (cfg.reactorOf fd)) :
    Matches cfg s
      ((s.note [.received fd (readn r) (packed fd r)]).goto t (.received i fd r)) c := by
  have hquiet : ∀ u, pendingOf u (s.log ++ [.received fd (readn r) (packed fd r)]) =
      pendingOf u s.log :=
    fun u => pendingOf_quiet (by simp [Note.ofFactory])
  have hother : ∀ fd', fd' ≠ fd → underway fd' (Pc.received i fd r) = [] := by
    intro fd' hfd
    rcases Pc.received_cases i fd r with ⟨-, he⟩ | ⟨-, he⟩ | ⟨-, -, he⟩ <;> rw [he]
    · exact if_neg (Ne.symm hfd)
    · rfl
    · exact if_neg (Ne.symm hfd)
  have hbefore : ∀ fd', underway fd' (s.pc t) = [] := fun fd' => by rw [hpc]; rfl
  rcases underway_received fd i r with ⟨hafter, hevent⟩ | ⟨hafter, hevent⟩
  · refine h.event fd rfl (List.filterMap_cons_some hevent) .taken ?_ fun fd' hfd => ?_
    · subst ht
      have hnone := hbefore fd
      rw [h fd, onTheWay, onTheWay, Server.goto_pc_self, hafter, hnone]
      simp only [Server.goto_log, Server.note_log, hquiet, List.map_append, List.append_nil,
        List.map_cons, List.map_nil]
    · simp only [onTheWay, Server.goto_log, Server.note_log, hquiet]
      congr 1
      refine underway_goto ?_ _
      rw [hother fd' hfd]
      exact (hbefore fd').symm
  · refine h.silent rfl (List.filterMap_cons_none hevent) (by simp [Note.ofFactory])
      fun fd' => underway_goto ?_
    by_cases hfd : fd' = fd
    · subst hfd
      rw [hafter]
      exact (hbefore fd').symm
    · rw [hother fd' hfd]
      exact (hbefore fd').symm

/-- A push that is refused loses the newest item. -/
theorem Carries.refused
    {u : Nat} {w : Wunit} {n : Int} {d : PackData}
    (h : Carries cfg s c)
    (hpc : s.pc t = .pushing fd n d)
    (ht : t = .reactor (cfg.reactorOf fd)) :
    Matches cfg s (((s.setUnit u w).note [.refused u fd n d]).goto t .dispatch) c := by
  have hquiet : ∀ u', pendingOf u' (s.log ++ [.refused u fd n d]) = pendingOf u' s.log :=
    fun u' => pendingOf_quiet (by simp [Note.ofFactory])
  have hheld : underway fd (s.pc t) = [d] := by
    rw [hpc]
    exact if_pos rfl
  refine h.event fd rfl rfl (.lost (x := d.content) ?_) rfl fun fd' hfd => ?_
  · subst ht
    rw [h fd, onTheWay, onTheWay, Server.goto_pc_self, hheld]
    simp only [Server.goto_log, Server.note_log, Server.setUnit_log, hquiet, List.map_append,
      List.map_cons, List.map_nil]
    simp [underway]
  · simp only [onTheWay, Server.goto_log, Server.note_log, Server.setUnit_log, hquiet]
    congr 1
    refine underway_goto (s := (s.setUnit u w).note _) ?_ _
    change underway fd' .dispatch = underway fd' (s.pc t)
    rw [hpc]
    exact (if_neg (Ne.symm hfd)).symm

/-- A push that is granted moves an item from the reactor to the ring. -/
theorem Carries.pushed
    {w : Wunit} {n : Int} {d : PackData}
    (h : Carries cfg s c)
    (hdel : Delivers cfg s)
    (hpc : s.pc t = .pushing fd n d)
    (ht : t = .reactor (cfg.reactorOf fd)) :
    Matches cfg s
      (((s.setUnit (cfg.unitOf fd) w).note [.pushed (cfg.unitOf fd) fd n d]).goto t
        (.notify (cfg.unitOf fd))) c := by
  obtain ⟨r, -, hd⟩ := hdel.packs t fd n d hpc
  have hfd : d.fd = ((fd : Nat) : Int) := by rw [hd, packed_fd]
  have hpending : ∀ u, pendingOf u (s.log ++ [.pushed (cfg.unitOf fd) fd n d]) =
      pendingOf u s.log ++ if cfg.unitOf fd = u then [d] else [] := by
    intro u
    obtain ⟨pending, -, hpushed⟩ := hdel.rings u
    have hlast : pushedOf u [.pushed (cfg.unitOf fd) fd n d] =
        if cfg.unitOf fd = u then [d] else [] := by
      by_cases hu : cfg.unitOf fd = u
      · simp [pushedOf, hu]
      · simp [pushedOf, hu]
    rw [pendingOf_eq hpushed]
    refine pendingOf_eq ?_
    rw [pushedOf_append, handledOf_append, hpushed, hlast]
    simp [handledOf]
  refine ⟨[], c, ?_, .nil, fun fd' => ?_⟩
  · simp only [Server.goto_log, Server.note_log, Server.setUnit_log]
    rw [channelEvents_append]
    rfl
  · rw [h fd', onTheWay, onTheWay]
    simp only [Server.goto_log, Server.note_log, Server.setUnit_log, hpending]
    by_cases hsame : fd' = fd
    · subst hsame
      subst ht
      have hheld : underway fd' (s.pc (.reactor (cfg.reactorOf fd'))) = [d] := by
        rw [hpc]
        exact if_pos rfl
      rw [hheld, Server.goto_pc_self]
      simp [underway, hfd]
    · have hne : ¬ d.fd = ((fd' : Nat) : Int) := by
        intro he
        exact hsame (Fin.ext (by omega))
      have hkeep : underway fd'
          ((((s.setUnit (cfg.unitOf fd) w).note [.pushed (cfg.unitOf fd) fd n d]).goto t
            (.notify (cfg.unitOf fd))).pc (.reactor (cfg.reactorOf fd'))) =
          underway fd' (s.pc (.reactor (cfg.reactorOf fd'))) := by
        refine underway_goto (s := (s.setUnit _ w).note _) ?_ _
        change underway fd' (.notify _) = underway fd' (s.pc t)
        rw [hpc]
        exact (if_neg (Ne.symm hsame)).symm
      rw [hkeep, List.filter_append]
      congr 2
      split
      · simp [hne]
      · simp

/-- The handler passes on the oldest item. -/
theorem Carries.handled
    {u : Nat} {stack : Nat → UInt8} {ret : Int} {rq : Ringq} {d : PackData} {stream : EbStream}
    {w : Wunit}
    (h : Carries cfg s c)
    (hdel : Delivers cfg s)
    (hrecv : cfg.callbacks .EB_RECV = true)
    (hclose : cfg.callbacks .EB_CLOSE = true)
    (hpop : popPack (s.units u).rq stack = .ok (ret, rq, d))
    (hret : -1 < ret)
    (hstream : streamOf d cfg.udata = .ok stream) :
    Matches cfg s
      ((s.setUnit u w).note
        (.handled u d :: callback cfg (.worker u)
          (if stream.buf_size = 0 then .EB_CLOSE else .EB_RECV) stream)) c := by
  rcases hdel.popped hpop with ⟨rfl, -⟩ | ⟨fd, n, pending, -, rfl, ⟨r, -, hd⟩, -, -, hpushed⟩
  · omega
  obtain ⟨hsfd, -, -, hcontent⟩ := streamOf_eq_ok (hd ▸ packed_len_bounds fd r) hstream
  have hfd : d.fd = ((fd : Nat) : Int) := by rw [hd, packed_fd]
  generalize he : (if stream.buf_size = 0 then EbEvent.EB_CLOSE else .EB_RECV) = e
  have he' : e = .EB_RECV ∨ e = .EB_CLOSE := by
    rw [← he]
    split
    · exact .inr rfl
    · exact .inl rfl
  have hone : callback cfg (.worker (cfg.unitOf fd)) e stream =
      [.called (.worker (cfg.unitOf fd)) e stream] := by
    unfold callback
    rcases he' with rfl | rfl
    · exact if_pos hrecv
    · exact if_pos hclose
  have hpending : ∀ u, pendingOf u s.log =
      (if cfg.unitOf fd = u then [d] else []) ++
        pendingOf u (s.log ++ .handled (cfg.unitOf fd) d ::
          callback cfg (.worker (cfg.unitOf fd)) e stream) := by
    intro u
    by_cases hu : cfg.unitOf fd = u
    · subst hu
      have hafter : pendingOf (cfg.unitOf fd) (s.log ++ .handled (cfg.unitOf fd) d ::
          callback cfg (.worker (cfg.unitOf fd)) e stream) = pending := by
        refine pendingOf_eq ?_
        rw [pushedOf_append, handledOf_append, pushedOf_handled, handledOf_handled, if_pos rfl,
          List.append_nil, hpushed, List.append_assoc, List.singleton_append]
      rw [hafter, pendingOf_eq hpushed, if_pos rfl, List.singleton_append]
    · simp only [pendingOf, pushedOf_append, handledOf_append, pushedOf_handled,
        handledOf_handled, if_neg hu, List.append_nil, List.nil_append]
  refine h.event fd rfl ?_ (.passed (x := d.content) ?_) rfl fun fd' hne => ?_
  · have hcall : Note.event (.called (.worker (cfg.unitOf fd)) e stream) =
        some (.passed ((fd : Nat) : Int) d.content) := by
      rw [← hcontent, ← hfd, ← hsfd]
      exact if_pos he'
    rw [hone]
    exact (List.filterMap_cons_none rfl).trans (List.filterMap_cons_some hcall)
  · rw [h fd, onTheWay, onTheWay, hpending (cfg.unitOf fd), if_pos rfl]
    simp [hfd]
  · rw [onTheWay, onTheWay, hpending (cfg.unitOf fd')]
    have hne' : ¬ d.fd = ((fd' : Nat) : Int) := by
      intro he
      exact hne (Fin.ext (by omega))
    simp only [Server.note_log, Server.setUnit_log, Server.note_pc, Server.setUnit_pc]
    split
    · simp [hne']
    · rw [List.nil_append]

/-- The other callbacks are not seen by the channels. -/
theorem channelEvents_callback_thread
    {e : EbEvent} {stream : EbStream} :
    channelEvents (callback cfg (.thread t) e stream) = [] := by
  unfold callback
  split <;> rfl

/-- One move. -/
theorem Carries.move
    (h : Carries cfg s c)
    (hdel : Delivers cfg s)
    (hdesc : Descriptors cfg s)
    (horderly : Orderly cfg s)
    (hrecv : cfg.callbacks .EB_RECV = true)
    (hclose : cfg.callbacks .EB_CLOSE = true)
    (hmove : Move cfg s a s') :
    Matches cfg s s' c := by
  have hlog : s.log = s.log ++ [] := by simp
  have hnil : ∀ x ∈ ([] : List Note), x.ofFactory = false := by simp
  have hstay : ∀ fd t, underway fd (s.pc t) = underway fd (s.pc t) := fun _ _ => rfl
  have hfree : ∀ {t pc pc'}, s.pc t = pc' → (∀ fd, underway fd pc' = []) →
      (∀ fd, underway fd pc = []) →
      ∀ fd t', underway fd ((s.goto t pc).pc t') = underway fd (s.pc t') := by
    intro t pc pc' ht h' hpc fd
    exact underway_goto (by rw [ht, h', hpc])
  cases hmove with
  | arrived => exact h.silent hlog rfl hnil hstay
  | booted _ hpc => exact h.silent hlog rfl hnil (hfree hpc (fun _ => rfl) fun _ => rfl)
  | waited _ hpc => exact h.silent hlog rfl hnil (hfree hpc (fun _ => rfl) fun _ => rfl)
  | drained _ hpc => exact h.silent hlog rfl hnil (hfree hpc (fun _ => rfl) fun _ => rfl)
  | ignored => exact h.silent hlog rfl hnil hstay
  | started _ hpc _ _ hstart =>
      exact h.silent hlog rfl hnil (hfree hpc (fun _ => rfl) fun _ => underway_start hstart)
  | writable =>
      exact h.silent rfl channelEvents_callback_thread callback_thread_not_ofFactory hstay
  | acceptFailed _ hpc => exact h.silent hlog rfl hnil (hfree hpc (fun _ => rfl) fun _ => rfl)
  | rejected _ hpc =>
      exact h.silent rfl rfl (by simp [Note.ofFactory]) (hfree hpc (fun _ => rfl) fun _ => rfl)
  | accepted _ hpc =>
      exact h.silent rfl rfl (by simp [Note.ofFactory]) (hfree hpc (fun _ => rfl) fun _ => rfl)
  | handedOff _ hpc => exact h.silent hlog rfl hnil (hfree hpc (fun _ => rfl) fun _ => rfl)
  | handOffFailed _ hpc => exact h.silent hlog rfl hnil (hfree hpc (fun _ => rfl) fun _ => rfl)
  | announced _ hpc =>
      exact h.silent rfl channelEvents_callback_thread callback_thread_not_ofFactory
        (hfree hpc (fun _ => rfl) fun _ => rfl)
  | counted _ hpc => exact h.silent hlog rfl hnil (hfree hpc (fun _ => rfl) fun _ => rfl)
  | pipeEmpty _ hpc => exact h.silent hlog rfl hnil (hfree hpc (fun _ => rfl) fun _ => rfl)
  | pipeTaken _ hpc => exact h.silent hlog rfl hnil (hfree hpc (fun _ => rfl) fun _ => rfl)
  | exhausted _ hpc => exact h.silent hlog rfl hnil (hfree hpc (fun _ => rfl) fun _ => rfl)
  | opened _ hpc =>
      exact h.silent hlog rfl hnil (hfree hpc (fun _ => rfl) fun _ => underway_opened)
  | openFailed _ hpc => exact h.silent hlog rfl hnil (hfree hpc (fun _ => rfl) fun _ => rfl)
  | undone _ hpc =>
      exact h.silent hlog rfl hnil (hfree hpc (fun _ => rfl) fun _ => underway_opened)
  | @received t _ i fd _ hpc =>
      obtain ⟨-, rfl⟩ := hdesc.at_index hpc rfl rfl
      have hacts := horderly.acts t
      rw [hpc] at hacts
      exact h.received hpc hacts
  | closedNone _ hpc =>
      exact h.silent hlog rfl hnil fun _ => underway_goto (hpc ▸ underway_closed)
  | closed _ hpc =>
      exact h.silent hlog rfl hnil fun _ => underway_goto (hpc ▸ underway_closed)
  | @refused t _ fd n d _ _ _ hpc =>
      have hacts := horderly.acts t
      rw [hpc] at hacts
      exact h.refused hpc hacts
  | @pushed t _ fd n d _ _ _ hpc =>
      have hacts := horderly.acts t
      rw [hpc] at hacts
      exact h.pushed hdel hpc hacts
  | notified _ hpc => exact h.silent hlog rfl hnil (hfree hpc (fun _ => rfl) fun _ => rfl)
  | woke => exact h.silent hlog rfl hnil hstay
  | handled _ hpop hret hstream => exact h.handled hdel hrecv hclose hpop hret hstream
  | emptied => exact h.silent hlog rfl hnil hstay

end Steps

section Result

variable {cfg : Cfg} {s : Server}

theorem carries_ebSrvNew : Carries cfg (ebSrvNew cfg) Channels.empty :=
  fun _ => rfl

theorem channels_of_reach
    (hrecv : cfg.callbacks .EB_RECV = true)
    (hclose : cfg.callbacks .EB_CLOSE = true)
    (hreach : Reach (step cfg) ClosesUnqueued (ebSrvNew cfg) s) :
    ∃ c, Path Channels.Next Channels.empty (channelEvents s.log) c ∧ Carries cfg s c := by
  refine hreach.simulates (fun s => channelEvents s.log) (Carries cfg)
    (J := fun s => Delivers cfg s ∧ Descriptors cfg s ∧ Orderly cfg s)
    (fun s hr => ⟨delivers_of_reach hr, descriptors_of_reach hr,
      orderly_of_reach (fun _ _ h => h.1) hr⟩) rfl carries_ebSrvNew ?_
  rintro s a s' c ⟨hdel, hdesc, horderly⟩ h - hstep
  exact h.move hdel hdesc horderly hrecv hclose (step_move hstep)

/-- The ring of a unit holds what is pending by its history. -/
theorem Delivers.pendingOf_ring
    (h : Delivers cfg s)
    (u : Nat) :
    PackRing ringCap (s.units u).rq (pendingOf u s.log) := by
  obtain ⟨pending, hring, hpushed⟩ := h.rings u
  rw [pendingOf_eq hpushed]
  exact hring

/-- **Connections refine channels.**  In every run whose close paths remove only events
that are not queued, with the kernel's consent, and with both callbacks installed, the
history is a run of the channels from the empty ones, and they end with what is on the way
in the server: in the rings of the units and in the hands of the reactors. -/
theorem connections_refine_channels
    (hrecv : cfg.callbacks .EB_RECV = true)
    (hclose : cfg.callbacks .EB_CLOSE = true)
    (hreach : Reach (step cfg) ClosesUnqueued (ebSrvNew cfg) s) :
    (∃ c, Path Channels.Next Channels.empty (channelEvents s.log) c ∧ Carries cfg s c) ∧
      ∀ u, PackRing ringCap (s.units u).rq (pendingOf u s.log) :=
  ⟨channels_of_reach hrecv hclose hreach, (delivers_of_reach hreach).pendingOf_ring⟩

/-- A byte has been taken and passed on, and a second one is in the ring. -/
theorem Small.second_byte :
    ∃ s, Reach (step Small.cfg) ClosesUnqueued Small.start s ∧
      channelEvents s.log =
        [.taken 7 (1, [65]), .passed 7 (1, [65]), .taken 7 (1, [65])] ∧
      (onTheWay Small.cfg 7 s).map PackData.content = [(1, [65])] := by
  obtain ⟨s, hreach, hcheck⟩ := reach_of_endsIn (step Small.cfg) ClosesUnqueued Small.start
    .disabled
    (Small.boot ++ Small.client 7 ++ Small.chunk 7 ++ [Small.worker] ++ Small.chunk 7)
    (fun s =>
      decide (channelEvents s.log =
        [.taken 7 (1, [65]), .passed 7 (1, [65]), .taken 7 (1, [65])]) &&
      decide ((onTheWay Small.cfg 7 s).map PackData.content = [(1, [65])]))
    (by decide +kernel)
  rw [Bool.and_eq_true, decide_eq_true_eq, decide_eq_true_eq] at hcheck
  exact ⟨s, hreach, hcheck⟩

/-- The second byte waits in the channel of its descriptor. -/
theorem connections_refine_channels_two_bytes :
    ∃ s c, Reach (step Small.cfg) ClosesUnqueued Small.start s ∧
      channelEvents s.log =
        [.taken 7 (1, [65]), .passed 7 (1, [65]), .taken 7 (1, [65])] ∧
      Path Channels.Next Channels.empty (channelEvents s.log) c ∧ c 7 = [(1, [65])] := by
  obtain ⟨s, hreach, hevents, hway⟩ := Small.second_byte
  obtain ⟨⟨c, hpath, hcarries⟩, -⟩ := connections_refine_channels rfl rfl hreach
  exact ⟨s, c, hreach, hevents, hpath, (hcarries 7).trans hway⟩

/-- The contents of the packets of a descriptor whose push was refused. -/
def refusedFor (fd : Fd) (log : List Note) : List (Int × List UInt8) :=
  log.filterMap fun
    | .refused _ fd' _ d => if fd' = fd then some d.content else none
    | _ => none

/-- What a channel has lost is what was refused. -/
theorem lostOf_channelEvents
    (fd : Fd) (log : List Note) :
    Channels.lostOf ((fd : Nat) : Int) (channelEvents log) = refusedFor fd log := by
  unfold Channels.lostOf channelEvents refusedFor
  rw [List.filterMap_filterMap]
  refine List.filterMap_congr fun x _ => ?_
  cases x with
  | received fd' n d =>
      dsimp only [Note.event]
      split <;> rfl
  | refused u fd' n d =>
      simp [Note.event, Fin.ext_iff, Int.natCast_inj]
  | called c e stream =>
      cases c with
      | thread t => rfl
      | worker u =>
          dsimp only [Note.event]
          split <;> rfl
  | _ => rfl

/-- **Nothing is invented, doubled or overtaken.**  In every run whose close paths remove
only events that are not queued, with the kernel's consent: what the application got for
a descriptor, followed by what is on the way, is in the order in which `readn` took it off
its socket; what is missing are the items whose push was refused, each as often as it was;
when none was, it is all of it. -/
theorem passed_in_order
    (hrecv : cfg.callbacks .EB_RECV = true)
    (hclose : cfg.callbacks .EB_CLOSE = true)
    (hreach : Reach (step cfg) ClosesUnqueued (ebSrvNew cfg) s)
    (fd : Fd) :
    let passed := Channels.passedOf ((fd : Nat) : Int) (channelEvents s.log)
    let taken := Channels.takenOf ((fd : Nat) : Int) (channelEvents s.log)
    let way := (onTheWay cfg fd s).map PackData.content
    (passed ++ way).Sublist taken ∧
      taken.Perm (passed ++ way ++ refusedFor fd s.log) ∧
      (refusedFor fd s.log = [] → passed ++ way = taken) := by
  obtain ⟨c, hpath, hcarries⟩ := channels_of_reach hrecv hclose hreach
  intro passed taken way
  have hway : c ((fd : Nat) : Int) = way := hcarries fd
  rw [← hway, ← lostOf_channelEvents]
  exact ⟨Channels.sublist_taken hpath, Channels.taken_perm hpath,
    Channels.eq_taken_of_lossless hpath⟩

/-- Nothing of the two bytes is lost. -/
theorem passed_in_order_two_bytes :
    ∃ s, Reach (step Small.cfg) ClosesUnqueued Small.start s ∧
      Channels.passedOf 7 (channelEvents s.log) = [(1, [65])] ∧
      Channels.passedOf 7 (channelEvents s.log) ++
          (onTheWay Small.cfg 7 s).map PackData.content =
        Channels.takenOf 7 (channelEvents s.log) := by
  obtain ⟨s, hreach, hevents, -⟩ := Small.second_byte
  refine ⟨s, hreach, by rw [hevents]; decide, ?_⟩
  refine (passed_in_order rfl rfl hreach 7).2.2 ?_
  rw [← lostOf_channelEvents, hevents]
  decide

end Result

/-! ## The backlog of a unit -/

/-- The packets of 140 bytes that a ring of a unit has room for. -/
def backlogLimit : Nat := ringCap / 140

/-- A push and the packets that were waiting before it. -/
def Note.Admitted (past : List Note) : Note → Prop
  | .pushed u _ _ _ => (pendingOf u past).length < backlogLimit
  | .refused u _ _ _ => (pendingOf u past).length = backlogLimit
  | _ => True

section Backlog

variable {cfg : Cfg} {s s' : Server} {a : Action}

theorem PackRing.length_le
    {rq : Ringq} {ds : List PackData}
    (h : PackRing ringCap rq ds) :
    140 * ds.length ≤ ringCap := by
  obtain ⟨_, hold⟩ := h.reach.holds capInRange_ringCap
  have hroom := hold.room
  rwa [used_packs] at hroom

/-- The packets that wait fit into the ring. -/
theorem Delivers.pending_le
    (h : Delivers cfg s)
    (u : Nat) :
    (pendingOf u s.log).length ≤ backlogLimit := by
  have hle := (h.pendingOf_ring u).length_le
  have hlimit : backlogLimit = 73 := rfl
  have hcap : ringCap = 10240 := rfl
  omega

/-- Whether a push is refused is decided by the packets that wait. -/
theorem Delivers.push_of_pending
    {u : Nat} {d : PackData} {ret : Int} {rq : Ringq}
    (h : Delivers cfg s)
    (hpush : pushPack (s.units u).rq d = .ok (ret, rq)) :
    if ret < 0 then (pendingOf u s.log).length = backlogLimit
    else (pendingOf u s.log).length < backlogLimit := by
  have hring := h.pendingOf_ring u
  have hle := hring.length_le
  have hlimit : backlogLimit = 73 := rfl
  have hcap : ringCap = 10240 := rfl
  rcases hring.push capInRange_ringCap hpush with ⟨rfl, hroom, -⟩ | ⟨rfl, hroom, -⟩
  · rw [if_neg (by decide)]
    omega
  · rw [if_pos (by decide)]
    omega

theorem admitted_callback
    {c : Caller} {e : EbEvent} {stream : EbStream} :
    ∀ x ∈ callback cfg c e stream, ∀ past, x.Admitted past := by
  intro x hmem past
  rw [eq_called_of_mem_callback hmem]
  trivial

/-- One move. -/
theorem admitted_move
    (h : Always Note.Admitted s.log)
    (hdel : Delivers cfg s)
    (hmove : Move cfg s a s') :
    Always Note.Admitted s'.log := by
  cases hmove with
  | writable => exact h.append admitted_callback
  | rejected => exact h.append_singleton trivial
  | accepted => exact h.append_singleton trivial
  | announced => exact h.append admitted_callback
  | received => exact h.append_singleton trivial
  | refused _ _ hpush hret =>
      have hlen := hdel.push_of_pending hpush
      rw [if_pos hret] at hlen
      exact h.append_singleton hlen
  | pushed _ _ hpush hret =>
      have hlen := hdel.push_of_pending hpush
      rw [if_neg hret] at hlen
      exact h.append_singleton hlen
  | handled =>
      refine h.append ?_
      rintro x (_ | ⟨_, hmem⟩) past
      · trivial
      · exact admitted_callback x hmem past
  | _ => exact h

end Backlog

/-- **What is lost, and when.**  In every run the ring of a unit holds the packets that
are pending by its history, no more than 73 of them, whatever the lengths of their chunks,
and a push is refused exactly when that many wait. -/
theorem refused_iff_backlog
    {cfg : Cfg} {s : Server}
    (hreach : Reachable (step cfg) (ebSrvNew cfg) s) :
    (∀ u, PackRing ringCap (s.units u).rq (pendingOf u s.log) ∧
        (pendingOf u s.log).length ≤ 73) ∧
      Always Note.Admitted s.log := by
  have hdel := delivers_of_reach hreach
  refine ⟨fun u => ⟨hdel.pendingOf_ring u, hdel.pending_le u⟩, ?_⟩
  refine hreach.invariant_of (I := fun s => Always Note.Admitted s.log)
    (J := Delivers cfg) (fun s hr => delivers_of_reach hr) always_nil ?_
  intro s a s' hdel _ h _ hstep
  exact admitted_move h hdel (step_move hstep)

/-- Of 74 bytes that no worker handles, the last is refused. -/
theorem refused_iff_backlog_full_ring :
    ∃ s, Reachable (step Small.cfg) Small.start s ∧ (refusedFor 7 s.log).length = 1 ∧
      (pendingOf 0 s.log).length = 73 ∧ Always Note.Admitted s.log := by
  obtain ⟨s, hreach, hcheck⟩ := reachable_of_endsIn (step Small.cfg) Small.start
    (Small.boot ++ Small.client 7 ++ (List.replicate 73 (Small.chunk 7)).flatten ++
      (Small.chunk 7).take 5)
    (fun s => decide ((refusedFor 7 s.log).length = 1) &&
      decide ((pendingOf 0 s.log).length = 73))
    (by decide +kernel)
  simp only [Bool.and_eq_true, decide_eq_true_eq] at hcheck
  exact ⟨s, hreach, hcheck.1, hcheck.2, (refused_iff_backlog hreach).2⟩

end Ebot
