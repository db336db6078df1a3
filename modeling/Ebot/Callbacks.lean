import Ebot.HandoffOutcome
import Ebot.Library.History

/-!
# What the application is told

Which thread calls which callback, for which descriptors, and with what: the master
announces, the reactor of a descriptor reports that it can be written, and the worker
of its unit delivers what was received on it, never more than the buffer of a stream
holds.
-/

namespace Ebot

open Function EdgeSource EventState Transition History

/-- The callbacks in the order of their numbers. -/
def EbEvent.all : List EbEvent := [.EB_CONNECT, .EB_RECV, .EB_WRITE, .EB_CLOSE]

/-- What may be behind a callback.  `past` is the history before it. -/
def Note.Due (cfg : Cfg) (past : List Note) : Note → Prop
  | .called c e stream =>
      cfg.callbacks e = true ∧ stream.udata = cfg.udata ∧
        ∃ fd : Fd, stream.fd = (fd : Nat) ∧ Accepted past fd ∧
          match e with
          | .EB_CONNECT => c = .thread .master ∧ stream.buf_size = 0
          | .EB_WRITE => c = .thread (.reactor (cfg.reactorOf fd)) ∧ stream.buf_size = 0
          | .EB_RECV =>
              c = .worker (cfg.unitOf fd) ∧ 0 < stream.buf_size ∧
                stream.buf_size ≤ STREAM_BUF_SIZE ∧
                ∃ (n : Int) (d : PackData), .received fd n d ∈ past ∧ d.content = stream.content
          | .EB_CLOSE =>
              c = .worker (cfg.unitOf fd) ∧ stream.buf_size = 0 ∧
                ∃ (n : Int) (d : PackData), .received fd n d ∈ past ∧ d.content = stream.content
  | _ => True

/-- Every callback is due when it is called. -/
def CallbacksDue (cfg : Cfg) (log : List Note) : Prop :=
  Always (fun past x => x.Due cfg past) log

/-- What is pushed comes from a `readn` on an accepted descriptor. -/
structure Sourced (s : Server) : Prop where
  pushing : ∀ t fd n d, s.pc t = .pushing fd n d → .received fd n d ∈ s.log
  closing : ∀ t d i fd, s.pc t = .closing d i fd →
    .received fd (-2) (.blank (fd : Nat)) ∈ s.log
  pushed : ∀ u fd n d, .pushed u fd n d ∈ s.log → .received fd n d ∈ s.log
  received : ∀ fd n d, .received fd n d ∈ s.log → Accepted s.log fd

/-- A place where a thread holds nothing it has received. -/
def Pc.holdsNothing : Pc → Bool
  | .closing _ _ _ | .pushing _ _ _ => false
  | _ => true

section Source

variable {cfg : Cfg} {s s' : Server} {a : Action} {t : Tid}

theorem sourced_ebSrvNew : Sourced (ebSrvNew cfg) where
  pushing := nofun
  closing := nofun
  pushed := nofun
  received := nofun

/-- A thread holds what it has received. -/
def Pc.Sourced (log : List Note) (pc : Pc) : Prop :=
  (∀ fd n d, pc = .pushing fd n d → .received fd n d ∈ log) ∧
    ∀ d i fd, pc = .closing d i fd → .received fd (-2) (.blank (fd : Nat)) ∈ log

theorem Pc.sourced_of_holdsNothing
    {log : List Note} {pc : Pc}
    (h : pc.holdsNothing = true) :
    pc.Sourced log := by
  refine ⟨?_, ?_⟩
  · rintro fd n d rfl
    cases h
  · rintro d i fd rfl
    cases h

theorem Pc.holdsNothing_start
    {fd : Fd} {cb : Callback} {arg : Arg} {pc : Pc}
    (h : Pc.start fd cb arg = some pc) :
    pc.holdsNothing = true := by
  cases cb <;> cases arg <;> cases h <;> rfl

theorem Pc.holdsNothing_opened
    {i : Nat} {fd : Fd} {d : Dir} :
    (Pc.opened i fd d).holdsNothing = true := by
  cases d <;> rfl

theorem Pc.sourced_closed
    {log : List Note} {i : Nat} {fd : Fd} {d : Dir}
    (h : .received fd (-2) (.blank (fd : Nat)) ∈ log) :
    (Pc.closed i fd d).Sourced log := by
  refine ⟨fun fd' n d' hpc => ?_, fun d' i' fd' hpc => ?_⟩
  · cases d <;> cases hpc
    exact h
  · cases d <;> cases hpc
    exact h

theorem Pc.sourced_received
    {log : List Note} {i : Nat} {fd : Fd} {r : RecvResult}
    (h : .received fd (readn r) (packed fd r) ∈ log) :
    (Pc.received i fd r).Sourced log := by
  rcases Pc.received_cases i fd r with ⟨hclose, he⟩ | ⟨-, he⟩ | ⟨-, -, he⟩ <;> rw [he]
  · refine ⟨fun _ _ _ hpc => (by cases hpc), ?_⟩
    rintro d i fd ⟨⟩
    have hblank : packed fd r = .blank (fd : Nat) := by
      cases r with
      | bytes bs pos fits =>
          simp only [readn] at hclose
          omega
      | wouldBlock => rfl
      | error => rfl
      | shutdown => rfl
    rw [hclose, hblank] at h
    exact h
  · exact Pc.sourced_of_holdsNothing rfl
  · refine ⟨?_, fun _ _ _ hpc => (by cases hpc)⟩
    rintro fd n d ⟨⟩
    exact h

/-- Steps that push and receive nothing new. -/
theorem Sourced.keep
    {notes : List Note}
    (h : Sourced s)
    (hlog : s'.log = s.log ++ notes)
    (hpushed : ∀ u fd n d, .pushed u fd n d ∈ notes → .received fd n d ∈ s.log)
    (hreceived : ∀ fd n d, .received fd n d ∈ notes → Accepted s.log fd)
    (hpcs : ∀ t, (s'.pc t).Sourced s'.log) :
    Sourced s' := by
  refine ⟨fun t => (hpcs t).1, fun t => (hpcs t).2, ?_, ?_⟩
  · intro u fd n d hmem
    rw [hlog] at hmem ⊢
    rcases List.mem_append.mp hmem with hold | hnew
    · exact List.mem_append_left _ (h.pushed u fd n d hold)
    · exact List.mem_append_left _ (hpushed u fd n d hnew)
  · intro fd n d hmem
    rw [hlog] at hmem ⊢
    rcases List.mem_append.mp hmem with hold | hnew
    · exact (h.received fd n d hold).append
    · exact (hreceived fd n d hnew).append

/-- What was sourced stays so. -/
theorem Sourced.pc
    {notes : List Note}
    (h : Sourced s)
    (t : Tid) :
    (s.pc t).Sourced (s.log ++ notes) :=
  ⟨fun fd n d hpc => List.mem_append_left _ (h.pushing t fd n d hpc),
    fun d i fd hpc => List.mem_append_left _ (h.closing t d i fd hpc)⟩

/-- A thread goes on. -/
theorem Sourced.goto
    {s₁ : Server} {notes : List Note} {pc : Pc}
    (h : Sourced s)
    (hlog : s₁.log = s.log ++ notes)
    (hpcs : s₁.pc = s.pc)
    (hpushed : ∀ u fd n d, .pushed u fd n d ∈ notes → .received fd n d ∈ s.log)
    (hreceived : ∀ fd n d, .received fd n d ∈ notes → Accepted s.log fd)
    (hpc : pc.Sourced s₁.log) :
    Sourced (s₁.goto t pc) := by
  refine h.keep hlog hpushed hreceived ?_
  refine Server.forall_pc_goto (P := fun _ pc => pc.Sourced s₁.log) (fun t' _ => ?_) hpc
  rw [hlog, hpcs]
  exact h.pc t'

/-- A callback pushes and receives nothing. -/
theorem callback_plain
    {c : Caller} {e : EbEvent} {stream : EbStream} :
    (∀ u fd n d, .pushed u fd n d ∉ callback cfg c e stream) ∧
      ∀ fd n d, .received fd n d ∉ callback cfg c e stream := by
  refine ⟨fun u fd n d hmem => ?_, fun fd n d hmem => ?_⟩
  · cases eq_called_of_mem_callback hmem
  · cases eq_called_of_mem_callback hmem

/-- One move. -/
theorem Sourced.move
    (h : Sourced s)
    (hdesc : Descriptors cfg s)
    (hmove : Move cfg s a s') :
    Sourced s' := by
  have hlog : s.log = s.log ++ [] := (List.append_nil _).symm
  have hpcs : ∀ t, (s.pc t).Sourced s.log := fun t => ⟨h.pushing t, h.closing t⟩
  -- a step that only goes on
  have hgo : ∀ {t pc} {s₁ : Server}, s₁.log = s.log → s₁.pc = s.pc → pc.Sourced s₁.log →
      Sourced (s₁.goto t pc) := by
    intro t pc s₁ hlog' hpcs' hpc
    exact h.goto (hlog'.trans hlog) hpcs' nofun nofun hpc
  have hfree : ∀ {t pc} {s₁ : Server}, s₁.log = s.log → s₁.pc = s.pc →
      pc.holdsNothing = true → Sourced (s₁.goto t pc) :=
    fun hlog' hpcs' hpc => hgo hlog' hpcs' (Pc.sourced_of_holdsNothing hpc)
  have hnote : ∀ {x : Note} {t pc} {s₁ : Server}, s₁.log = s.log ++ [x] → s₁.pc = s.pc →
      (∀ u fd n d, x ≠ .pushed u fd n d) → (∀ fd n d, x ≠ .received fd n d) →
      pc.holdsNothing = true → Sourced (s₁.goto t pc) := by
    intro x t pc s₁ hlog' hpcs' hpushed hreceived hpc
    refine h.goto hlog' hpcs' (fun u fd n d hmem => ?_) (fun fd n d hmem => ?_)
      (Pc.sourced_of_holdsNothing hpc)
    · exact absurd (List.mem_singleton.mp hmem).symm (hpushed u fd n d)
    · exact absurd (List.mem_singleton.mp hmem).symm (hreceived fd n d)
  cases hmove with
  | arrived => exact h.keep hlog nofun nofun hpcs
  | booted => exact hfree rfl rfl rfl
  | waited => exact hfree rfl rfl rfl
  | drained => exact hfree rfl rfl rfl
  | ignored => exact h.keep hlog nofun nofun hpcs
  | started _ _ _ _ hstart => exact hfree rfl rfl (Pc.holdsNothing_start hstart)
  | writable =>
      exact h.keep rfl (fun _ _ _ _ hmem => absurd hmem (callback_plain.1 _ _ _ _))
        (fun _ _ _ hmem => absurd hmem (callback_plain.2 _ _ _)) h.pc
  | acceptFailed => exact hfree rfl rfl rfl
  | rejected => exact hnote rfl rfl nofun nofun rfl
  | accepted => exact hnote rfl rfl nofun nofun rfl
  | handedOff => exact hfree rfl rfl rfl
  | handOffFailed => exact hfree rfl rfl rfl
  | announced =>
      exact h.goto rfl rfl (fun _ _ _ _ hmem => absurd hmem (callback_plain.1 _ _ _ _))
        (fun _ _ _ hmem => absurd hmem (callback_plain.2 _ _ _))
        (Pc.sourced_of_holdsNothing rfl)
  | counted => exact hfree rfl rfl rfl
  | pipeEmpty => exact hfree rfl rfl rfl
  | pipeTaken => exact hfree rfl rfl rfl
  | exhausted => exact hfree rfl rfl rfl
  | opened => exact hfree rfl rfl Pc.holdsNothing_opened
  | openFailed => exact hfree rfl rfl rfl
  | undone => exact hfree rfl rfl Pc.holdsNothing_opened
  | @received t env i fd _ hpc =>
      refine h.goto rfl rfl nofun ?_ (Pc.sourced_received ?_)
      · intro fd' n d hmem
        cases List.mem_singleton.mp hmem
        exact hdesc.at_connection hpc rfl
      · exact List.mem_append_right _ List.mem_cons_self
  | closedNone _ hpc => exact hgo rfl rfl (Pc.sourced_closed (h.closing _ _ _ _ hpc))
  | closed _ hpc => exact hgo rfl rfl (Pc.sourced_closed (h.closing _ _ _ _ hpc))
  | refused => exact hnote rfl rfl nofun nofun rfl
  | pushed _ hpc =>
      refine h.goto rfl rfl ?_ nofun (Pc.sourced_of_holdsNothing rfl)
      intro u fd n d hmem
      cases List.mem_singleton.mp hmem
      exact h.pushing _ _ _ _ hpc
  | notified => exact hfree rfl rfl rfl
  | woke => exact h.keep hlog nofun nofun hpcs
  | handled =>
      refine h.keep rfl (fun _ _ _ _ hmem => ?_) (fun _ _ _ hmem => ?_) h.pc
      · rcases List.mem_cons.mp hmem with he | hmem
        · cases he
        · exact absurd hmem (callback_plain.1 _ _ _ _)
      · rcases List.mem_cons.mp hmem with he | hmem
        · cases he
        · exact absurd hmem (callback_plain.2 _ _ _)
  | emptied => exact h.keep hlog nofun nofun hpcs

theorem sourced_of_reach
    {good : Server → Action → Prop}
    (hreach : Reach (step cfg) good (ebSrvNew cfg) s) :
    Sourced s := by
  refine hreach.invariant_of (J := Descriptors cfg) (fun s hr => descriptors_of_reach hr)
    sourced_ebSrvNew ?_
  intro s a s' hdesc _ h _ hstep
  exact h.move hdesc (step_move hstep)

end Source

section Due

variable {cfg : Cfg} {s s' : Server} {a : Action} {t : Tid} {log : List Note}

theorem streamOf_udata
    {d : PackData} {udata : UInt64} {stream : EbStream}
    (h : streamOf d udata = .ok stream) :
    stream.udata = udata := by
  unfold streamOf at h
  obtain ⟨buf, -, h⟩ := bind_eq_ok.mp h
  cases h
  rfl

/-- A callback that is due. -/
theorem CallbacksDue.append_callback
    {c : Caller} {e : EbEvent} {stream : EbStream}
    (h : CallbacksDue cfg log)
    (hdue : cfg.callbacks e = true → (Note.called c e stream).Due cfg log) :
    CallbacksDue cfg (log ++ callback cfg c e stream) := by
  unfold callback
  split
  · rename_i hcb
    exact h.append_singleton (hdue hcb)
  · rw [List.append_nil]
    exact h

/-- Another entry. -/
theorem CallbacksDue.append_other
    {x : Note}
    (h : CallbacksDue cfg log)
    (hx : ∀ c e stream, x ≠ .called c e stream) :
    CallbacksDue cfg (log ++ [x]) := by
  refine h.append_singleton ?_
  cases x with
  | called c e stream => exact absurd rfl (hx c e stream)
  | _ => trivial

/-- The write callback is the reactor's, for its own connection. -/
theorem Regular.due_write
    {p : Nat} {events : EventState}
    (h : Regular cfg s)
    (hcb : cfg.callbacks .EB_WRITE = true)
    (htk : Taken s.events t p events)
    (hcallback : (events.ev p).callback = some .reacto_pool_client_write_callback) :
    (Note.called (.thread t) .EB_WRITE (ebStream ((events.ev p).fd : Nat) cfg.udata)).Due cfg
      s.log := by
  have htid := h.orderly.tables.readyTid t p (htk.queue ▸ List.mem_cons_self)
  have hev := (h.desc.ev p).agrees (htk.content.agrees (p := p))
  have hcb' := Event.cb_of_callback hcallback
  rw [← htk.content.arg] at htid
  rcases hev with hnone | ⟨t', hboot⟩ | ⟨d, fd, hacc, hclient⟩
  · rw [hnone] at hcb'
    cases hcb'
  · have hcb'' := hboot.cb.symm.trans hcb'
    cases t' <;> cases hcb''
  · have hfd : (events.ev p).fd = fd := hclient.fd
    have ht : t = .reactor (cfg.reactorOf fd) := by
      rw [hclient.arg] at htid
      exact htid.symm
    refine ⟨hcb, rfl, fd, by rw [hfd]; rfl, hacc, by rw [ht], rfl⟩

/-- The worker delivers what was received. -/
theorem Delivers.due_handled
    {u : Nat} {stack : Nat → UInt8} {ret : Int} {rq : Ringq} {d : PackData} {stream : EbStream}
    {e : EbEvent}
    (hdel : Delivers cfg s)
    (hsourced : Sourced s)
    (hpop : popPack (s.units u).rq stack = .ok (ret, rq, d))
    (hret : -1 < ret)
    (hstream : streamOf d cfg.udata = .ok stream)
    (he : (if stream.buf_size = 0 then .EB_CLOSE else .EB_RECV) = e)
    (hcb : cfg.callbacks e = true) :
    (Note.called (.worker u) e stream).Due cfg (s.log ++ [.handled u d]) := by
  rcases hdel.popped hpop with ⟨rfl, -⟩ | ⟨fd, n, _, hpushed, rfl, ⟨r, -, hd⟩, -⟩
  · omega
  obtain ⟨hfd, -, hle, hcontent⟩ := streamOf_eq_ok (hd ▸ packed_len_bounds fd r) hstream
  have hreceived := hsourced.pushed _ _ _ _ hpushed
  have hacc := hsourced.received _ _ _ hreceived
  have hfrom : ∃ (n : Int) (d' : PackData),
      Note.received fd n d' ∈ s.log ++ [.handled (cfg.unitOf fd) d] ∧
        d'.content = stream.content :=
    ⟨n, d, List.mem_append_left _ hreceived, hcontent.symm⟩
  refine ⟨hcb, streamOf_udata hstream, fd, by rw [hfd, hd, packed_fd], hacc.append, ?_⟩
  by_cases hzero : stream.buf_size = 0
  · rw [if_pos hzero] at he
    subst he
    exact ⟨rfl, hzero, hfrom⟩
  · rw [if_neg hzero] at he
    subst he
    exact ⟨rfl, by omega, hle, hfrom⟩

/-- One move. -/
theorem CallbacksDue.move
    (h : CallbacksDue cfg s.log)
    (hregular : Regular cfg s)
    (hdel : Delivers cfg s)
    (hsourced : Sourced s)
    (hmove : Move cfg s a s') :
    CallbacksDue cfg s'.log := by
  cases hmove with
  | writable _ _ htk hcallback =>
      exact h.append_callback fun hcb => hregular.due_write hcb htk hcallback
  | rejected => exact h.append_other nofun
  | accepted => exact h.append_other nofun
  | @announced t _ fd _ hpc =>
      refine h.append_callback fun hcb => ?_
      obtain rfl := hregular.alone.eq_master hpc rfl
      exact ⟨hcb, rfl, fd, rfl, hregular.desc.at_connection hpc rfl, rfl, rfl⟩
  | received => exact h.append_other nofun
  | refused => exact h.append_other nofun
  | pushed => exact h.append_other nofun
  | @handled u _ _ _ d stream _ hpop hret hstream =>
      change CallbacksDue cfg (s.log ++ (.handled u d :: _))
      rw [← List.singleton_append, ← List.append_assoc]
      refine (h.append_other (fun _ _ _ he => by cases he)).append_callback fun hcb => ?_
      exact hdel.due_handled hsourced hpop hret hstream rfl hcb
  | _ => exact h

end Due

/-- **The application is told what happened, by whom it should be.**  In every run whose
close paths remove only events that are not queued, with the kernel's consent, every call
of a callback is of an installed one, with the `udata` of the server and for a descriptor
accepted before: `EB_CONNECT` by the master, `EB_WRITE` by the reactor of the descriptor,
`EB_RECV` and `EB_CLOSE` by the worker of its unit, with the content of something received
on it, of 1 to 128 bytes and of none. -/
theorem callbacks_due
    {cfg : Cfg} {s : Server}
    (hreach : Reach (step cfg) ClosesUnqueued (ebSrvNew cfg) s) :
    CallbacksDue cfg s.log := by
  refine hreach.invariant_of (I := fun s => CallbacksDue cfg s.log)
    (J := fun s => Regular cfg s ∧ Delivers cfg s ∧ Sourced s)
    (fun s hr => ⟨regular_of_reach (hr.mono fun _ _ h => h.1), delivers_of_reach hr,
      sourced_of_reach hr⟩)
    always_nil ?_
  rintro s a s' ⟨hregular, hdel, hsourced⟩ - h - hstep
  exact h.move hregular hdel hsourced (step_move hstep)

/-- A client connects, can be written to, sends a byte and closes: four callbacks. -/
theorem callbacks_due_one_client :
    ∃ s, Reach (step Small.cfg) ClosesUnqueued Small.start s ∧
      (EbEvent.all.map fun e => calledFor e 7 s.log) = [true, true, true, true] ∧
      CallbacksDue Small.cfg s.log := by
  obtain ⟨s, hreach, hcheck⟩ := reach_of_endsIn (step Small.cfg) ClosesUnqueued Small.start
    .disabled
    (Small.boot ++ Small.client 7 ++
      [.wait (.reactor 0) [Small.epollinout 7], Small.reactor, Small.recv Small.oneByte,
        Small.reactor, Small.reactor, Small.reactor, Small.reactor] ++
      Small.peerClose 7 ++ [Small.worker, Small.worker])
    (fun s => decide (EbEvent.all.map (fun e => calledFor e 7 s.log) =
      [true, true, true, true]))
    (by decide +kernel)
  rw [decide_eq_true_eq] at hcheck
  exact ⟨s, hreach, hcheck, callbacks_due hreach⟩

end Ebot
