import Ebot.Closing
import Ebot.EventLoop
import Ebot.Lifetime

/-!
# Callbacks after removal

`EventLoop` shows for an event base on its own that no callback of a removed
event is invoked, as long as no queued event is removed.  This module adds what
that means for a connection of the server: no `EB_WRITE` is called for it after
the reactor has seen the close of its peer.
-/

namespace Ebot

open Function EdgeSource EventState Transition History

/-- `EB_WRITE` is not called for the descriptor after its close was seen. -/
def NoWriteAfterClose (fd : Fd) (log : List Note) : Prop :=
  Always (fun past x => ∀ (c : Caller) (stream : EbStream),
    x = .called c .EB_WRITE stream → stream.fd = (fd : Nat) →
      closeSeen fd past = false) log

/-- The connection a thread is closing. -/
def Pc.closes : Pc → Option Fd
  | .closing _ _ fd => some fd
  | .opening _ _ _ | .undoing _ _ _ _ | .boot | .idle | .dispatch | .accept
  | .handOff _ | .announce _ | .count | .pipeRead _ | .recv _ _ | .pushing _ _ _
  | .notify _ => none

/-- The connection a thread is registering for writing. -/
def Pc.opensWrite : Pc → Option Fd
  | .opening .write _ fd | .undoing .write _ fd _ => some fd
  | .opening .read _ _ | .undoing .read _ _ _ | .closing _ _ _ | .boot | .idle
  | .dispatch | .accept | .handOff _ | .announce _ | .count | .pipeRead _ | .recv _ _
  | .pushing _ _ _ | .notify _ => none

/-- Once the close was seen, the reactor is removing the events of the
connection, or no write event is registered for it or about to be. -/
def WriteSide (cfg : Cfg) (fd : Fd) (s : Server) : Prop :=
  closeSeen fd s.log = true →
    (s.pc (.reactor (cfg.reactorOf fd))).closes = some fd ∨
      s.events.slot (.reactor (cfg.reactorOf fd)) .write fd = none ∧
        (s.pc (.reactor (cfg.reactorOf fd))).opensWrite ≠ some fd

section Steps

variable {cfg : Cfg} {s s' : Server} {a : Action} {fd : Fd} {t : Tid}

/-- A step of the reactor that registers nothing for writing. -/
theorem WriteSide.goto
    {pc₀ pc : Pc}
    (h : WriteSide cfg fd s)
    (hold : s.pc (.reactor (cfg.reactorOf fd)) = pc₀)
    (hpc : s'.pc (.reactor (cfg.reactorOf fd)) = pc)
    (hcloses : pc₀.closes = some fd → pc.closes = some fd)
    (hopens : pc.opensWrite = some fd → pc₀.opensWrite = some fd)
    (hslot : s.events.slot (.reactor (cfg.reactorOf fd)) .write fd = none →
      s'.events.slot (.reactor (cfg.reactorOf fd)) .write fd = none)
    (hseen : closeSeen fd s'.log = closeSeen fd s.log) :
    WriteSide cfg fd s' := by
  intro hclose
  rw [hseen] at hclose
  rw [hpc]
  rcases h hclose with hc | ⟨hnone, ho⟩
  · rw [hold] at hc
    exact .inl (hcloses hc)
  · rw [hold] at ho
    exact .inr ⟨hslot hnone, fun h => ho (hopens h)⟩

/-- A step between places that neither remove nor register. -/
theorem WriteSide.plain
    {pc₀ pc : Pc}
    (h : WriteSide cfg fd s)
    (hold : s.pc (.reactor (cfg.reactorOf fd)) = pc₀)
    (hpc : s'.pc (.reactor (cfg.reactorOf fd)) = pc)
    (hcloses : pc₀.closes = none)
    (hopens : pc.opensWrite = none)
    (hslot : s.events.slot (.reactor (cfg.reactorOf fd)) .write fd = none →
      s'.events.slot (.reactor (cfg.reactorOf fd)) .write fd = none)
    (hseen : closeSeen fd s'.log = closeSeen fd s.log) :
    WriteSide cfg fd s' := by
  refine h.goto hold hpc ?_ ?_ hslot hseen
  · rw [hcloses]
    rintro ⟨⟩
  · rw [hopens]
    rintro ⟨⟩

theorem Pc.removal_start
    {fd' : Fd} {cb : Callback} {arg : Arg} {pc : Pc}
    (h : Pc.start fd' cb arg = some pc) :
    pc.opensWrite = none := by
  cases cb <;> cases arg <;> cases h <;> rfl

theorem Pc.removal_closed
    {i : Nat} {fd' : Fd} {d : Dir} :
    (Pc.closed i fd' d).opensWrite = none := by
  cases d <;> rfl

theorem Pc.removal_received
    {i : Nat} {fd' : Fd} {r : RecvResult} :
    (Pc.received i fd' r).opensWrite = none := by
  rcases Pc.received_cases i fd' r with ⟨-, h⟩ | ⟨-, h⟩ | ⟨-, -, h⟩ <;> rw [h] <;> rfl

/-- Opening the write event of a connection: its close was not seen. -/
theorem OnePlace.not_closeSeen_of_registers
    (h : OnePlace cfg fd s)
    (hpc : (s.pc (.reactor (cfg.reactorOf fd))).registers = some fd)
    (hremoves : (s.pc (.reactor (cfg.reactorOf fd))).removes = none) :
    closeSeen fd s.log = false := by
  have h₁ : registering fd (s.pc (.reactor (cfg.reactorOf fd))) = 1 := if_pos hpc
  have hone := h.one
  unfold places at hone
  rw [h₁] at hone
  cases hseen : closeSeen fd s.log with
  | false => rfl
  | true =>
      have h₂ : spent fd true (s.pc (.reactor (cfg.reactorOf fd))) = 1 :=
        if_pos ⟨rfl, by simp [hremoves]⟩
      rw [hseen, h₂] at hone
      omega

/-- A write event was opened; the tables for reading do not matter. -/
theorem WriteSide.opened
    {d : Dir} {fd' : Fd} {p : Nat} {events : EventState}
    (h : WriteSide cfg fd s)
    (hplace : OnePlace cfg fd s)
    (hpc : s.pc (.reactor (cfg.reactorOf fd)) = .opening d (cfg.reactorOf fd) fd')
    (hop : Opened s.events (.reactor (cfg.reactorOf fd)) d
      (clientEvent d fd' (cfg.reactorOf fd)) p 0 events) :
    WriteSide cfg fd
      ({ s with events }.goto (.reactor (cfg.reactorOf fd))
        (.opened (cfg.reactorOf fd) fd' d)) := by
  cases d with
  | read =>
      intro hclose
      by_cases hfd : fd' = fd
      · subst hfd
        have hfalse := hplace.not_closeSeen_of_registers
          (by rw [hpc]; rfl) (by rw [hpc]; rfl)
        rw [Server.goto_log] at hclose
        exact absurd hclose (by simp [hfalse])
      · refine h.goto hpc Server.goto_pc_self ?_ ?_ ?_ rfl hclose
        · rintro ⟨⟩
        · rintro ⟨⟩
          exact absurd rfl hfd
        · intro hnone
          rw [Server.goto_events, hop.slot]
          simpa using hnone
  | write =>
      intro hclose
      rcases h hclose with hc | ⟨hnone, ho⟩
      · rw [hpc] at hc
        cases hc
      · have hfd : fd' ≠ fd := by
          rintro rfl
          rw [hpc] at ho
          exact ho rfl
        refine .inr ⟨?_, ?_⟩
        · rw [Server.goto_events, hop.slot, if_neg]
          · exact hnone
          · rintro ⟨-, -, -, he, -⟩
            exact hfd (Fin.ext he).symm
        · rw [Server.goto_pc_self]
          rintro ⟨⟩

/-- An event of a connection was removed. -/
theorem WriteSide.closed
    {d : Dir} {fd' : Fd} {events : EventState}
    (h : WriteSide cfg fd s)
    (hpc : s.pc (.reactor (cfg.reactorOf fd)) = .closing d (cfg.reactorOf fd) fd')
    (hgone : events.slot (.reactor (cfg.reactorOf fd)) d fd' = none)
    (hslot : s.events.slot (.reactor (cfg.reactorOf fd)) .write fd = none →
      events.slot (.reactor (cfg.reactorOf fd)) .write fd = none) :
    WriteSide cfg fd
      ({ s with events }.goto (.reactor (cfg.reactorOf fd))
        (.closed (cfg.reactorOf fd) fd' d)) := by
  by_cases hfd : fd' = fd
  · subst hfd
    intro _
    rw [Server.goto_pc_self]
    cases d with
    | read => exact .inl rfl
    | write => exact .inr ⟨hgone, by rintro ⟨⟩⟩
  · refine h.goto hpc Server.goto_pc_self ?_ ?_ hslot rfl
    · rintro ⟨⟩
      exact absurd rfl hfd
    · rw [Pc.removal_closed]
      rintro ⟨⟩

/-- `recv` answers. -/
theorem WriteSide.received
    {fd' : Fd} {r : RecvResult}
    (h : WriteSide cfg fd s)
    (hpc : s.pc (.reactor (cfg.reactorOf fd)) = .recv (cfg.reactorOf fd) fd') :
    WriteSide cfg fd
      ((s.note [.received fd' (readn r) (packed fd' r)]).goto
        (.reactor (cfg.reactorOf fd)) (.received (cfg.reactorOf fd) fd' r)) := by
  by_cases hnew : closeSeen fd [.received fd' (readn r) (packed fd' r)] = true
  · intro _
    left
    obtain ⟨d, hmem⟩ := closeSeen_iff.mp hnew
    simp only [List.mem_singleton, Note.received.injEq] at hmem
    obtain ⟨rfl, hn, -⟩ := hmem
    rw [Server.goto_pc_self, Pc.received, if_pos hn.symm]
    rfl
  · exact h.plain hpc Server.goto_pc_self rfl Pc.removal_received id
      (closeSeen_append_of_false (Bool.not_eq_true _ ▸ hnew))

/-- One step of the reactor. -/
theorem WriteSide.move_reactor
    (h : WriteSide cfg fd s)
    (horderly : Orderly cfg s)
    (hplace : OnePlace cfg fd s)
    (hgood : RemovalsGranted s a)
    (hmove : Move cfg s a s')
    (ha : a.thread = some (.reactor (cfg.reactorOf fd))) :
    WriteSide cfg fd s' := by
  have hacts : ∀ {pc}, s.pc (.reactor (cfg.reactorOf fd)) = pc →
      pc.ActsFor cfg (.reactor (cfg.reactorOf fd)) := fun hpc => hpc ▸ horderly.acts _
  have hself : ∀ {s₁ : Server} {pc}, (s₁.goto (.reactor (cfg.reactorOf fd)) pc).pc
      (.reactor (cfg.reactorOf fd)) = pc := Server.goto_pc_self
  cases hmove with
  | arrived => cases ha
  | woke => cases ha
  | handled => cases ha
  | emptied => cases ha
  | booted _ hpc hop =>
      cases ha
      refine h.plain hpc hself rfl rfl (fun hnone => ?_) rfl
      rw [Server.goto_events, hop.slot]
      simpa using hnone
  | waited _ hpc _ hcol =>
      cases ha
      exact h.plain hpc hself rfl rfl (fun hnone => (hcol.slot _ _ _).trans hnone) rfl
  | drained _ hpc =>
      cases ha
      exact h.plain hpc hself rfl rfl id rfl
  | ignored _ hpc htk =>
      cases ha
      exact h.plain hpc hpc rfl rfl (fun hnone => (htk.slot _ _ _).trans hnone) rfl
  | writable _ hpc htk =>
      cases ha
      exact h.plain hpc hpc rfl rfl (fun hnone => (htk.slot _ _ _).trans hnone)
        (closeSeen_append_of_false closeSeen_callback)
  | started _ hpc htk _ hstart =>
      cases ha
      exact h.plain hpc hself rfl (Pc.removal_start hstart)
        (fun hnone => (htk.slot _ _ _).trans hnone) rfl
  | acceptFailed _ hpc =>
      cases ha
      exact h.plain hpc hself rfl rfl id rfl
  | rejected _ hpc =>
      cases ha
      exact h.plain hpc hself rfl rfl id (closeSeen_append_of_false rfl)
  | accepted _ hpc =>
      cases ha
      exact h.plain hpc hself rfl rfl id (closeSeen_append_of_false rfl)
  | handedOff _ hpc =>
      cases ha
      exact h.plain hpc hself rfl rfl id rfl
  | handOffFailed _ hpc =>
      cases ha
      exact h.plain hpc hself rfl rfl id rfl
  | announced _ hpc =>
      cases ha
      exact h.plain hpc hself rfl rfl id (closeSeen_append_of_false closeSeen_callback)
  | counted _ hpc =>
      cases ha
      exact h.plain hpc hself rfl rfl id rfl
  | pipeEmpty _ hpc =>
      cases ha
      exact h.plain hpc hself rfl rfl id rfl
  | pipeTaken _ hpc =>
      cases ha
      exact h.plain hpc hself rfl rfl id rfl
  | exhausted _ hpc =>
      cases ha
      exact h.plain hpc hself rfl rfl id rfl
  | opened _ hpc hop =>
      cases ha
      cases hacts hpc
      exact h.opened hplace hpc hop
  | @openFailed _ _ d _ _ _ _ _ hpc hop =>
      cases ha
      refine h.goto hpc hself (by rintro ⟨⟩) ?_ (fun hnone => ?_) rfl
      · cases d <;> exact id
      · rw [Server.goto_events, hop.slot]
        simpa using hnone
  | @undone _ _ d i fd' p events _ hpc hput =>
      cases ha
      cases hacts hpc
      have hslot : ∀ t d fd, events.slot t d fd = s.events.slot t d fd := by
        intro t d fd
        simp [EventState.slot, hput.base]
      cases d with
      | write => exact h.plain hpc hself rfl rfl (fun hn => (hslot _ _ _).trans hn) rfl
      | read =>
          intro hclose
          by_cases hfd : fd' = fd
          · subst hfd
            have hfalse := hplace.not_closeSeen_of_registers
              (by rw [hpc]; rfl) (by rw [hpc]; rfl)
            rw [Server.goto_log] at hclose
            exact absurd hclose (by simp [hfalse])
          · refine h.goto hpc hself (by rintro ⟨⟩) ?_ (fun hn => (hslot _ _ _).trans hn)
              rfl hclose
            rintro ⟨⟩
            exact absurd rfl hfd
  | received _ hpc =>
      cases ha
      cases hacts hpc
      exact h.received hpc
  | closedNone _ hpc hslot =>
      cases ha
      cases hacts hpc
      exact h.closed hpc hslot id
  | @closed _ _ d i fd' p _ events _ hpc hslot hcl hgrant =>
      cases ha
      cases hacts hpc
      have htables := horderly.tables
      obtain rfl := htables.granted hpc hslot hgood hgrant
      refine h.closed hpc ?_ fun hnone => ?_
      · rw [hcl.slot d (htables.isFor _ _ _ _ hslot),
          if_pos ⟨rfl, rfl, (htables.fd _ _ _ _ hslot).symm⟩]
      · cases hq : events.slot (.reactor (cfg.reactorOf fd)) .write fd with
        | none => rfl
        | some q =>
            rw [hcl.subset _ _ _ _ hq] at hnone
            cases hnone
  | refused _ hpc =>
      cases ha
      exact h.plain hpc hself rfl rfl id (closeSeen_append_of_false rfl)
  | pushed _ hpc =>
      cases ha
      exact h.plain hpc hself rfl rfl id (closeSeen_append_of_false rfl)
  | notified _ hpc =>
      cases ha
      exact h.plain hpc hself rfl rfl id rfl

/-- Only the reactor of a descriptor sees its close. -/
theorem Move.closeSeen_other
    (horderly : Orderly cfg s)
    (hdesc : Descriptors cfg s)
    (hmove : Move cfg s a s')
    (ha : a.thread ≠ some (.reactor (cfg.reactorOf fd))) :
    closeSeen fd s'.log = closeSeen fd s.log := by
  cases hmove with
  | writable => exact closeSeen_append_of_false closeSeen_callback
  | announced => exact closeSeen_append_of_false closeSeen_callback
  | rejected => exact closeSeen_append_of_false rfl
  | accepted => exact closeSeen_append_of_false rfl
  | refused => exact closeSeen_append_of_false rfl
  | pushed => exact closeSeen_append_of_false rfl
  | handled => exact closeSeen_append_of_false closeSeen_callback
  | @received t env i fd' _ hpc =>
      have hacts := horderly.acts t
      rw [hpc] at hacts
      obtain ⟨-, rfl⟩ := hdesc.at_index hpc rfl rfl
      have hfd : fd' ≠ fd := by
        rintro rfl
        exact ha (congrArg some hacts)
      exact closeSeen_append_of_false (by simp [closeSeen, hfd])
  | _ => rfl

/-- One move. -/
theorem WriteSide.move
    (h : WriteSide cfg fd s)
    (horderly : Orderly cfg s)
    (hdesc : Descriptors cfg s)
    (hplace : OnePlace cfg fd s)
    (hgood : RemovalsGranted s a)
    (hmove : Move cfg s a s') :
    WriteSide cfg fd s' := by
  by_cases ha : a.thread = some (.reactor (cfg.reactorOf fd))
  · exact h.move_reactor horderly hplace hgood hmove ha
  · obtain ⟨-, hslot, -⟩ := hmove.reactor_frame horderly ha
    unfold WriteSide
    rw [hmove.closeSeen_other horderly hdesc ha, hmove.pc_other ha, hslot]
    exact h

theorem writeSide_of_reach
    {good : Server → Action → Prop}
    (hfd : cfg.opened fd = false)
    (hgranted : ∀ s a, good s a → RemovalsGranted s a)
    (hreach : Reach (step cfg) good (ebSrvNew cfg) s) :
    WriteSide cfg fd s := by
  refine hreach.invariant_of
    (J := fun s => Orderly cfg s ∧ Descriptors cfg s ∧ OnePlace cfg fd s)
    (fun s hr => ⟨orderly_of_reach hgranted hr, descriptors_of_reach hr,
      onePlace_of_reach hfd hgranted hr⟩) (fun h => by cases h) ?_
  rintro s a s' ⟨horderly, hdesc, hplace⟩ - h hgood hstep
  exact h.move horderly hdesc hplace (hgranted s a hgood) (step_move hstep)

/-- The close of a connection whose write event is dispatched was not seen. -/
theorem not_closeSeen_of_writable
    {p : Nat} {events : EventState}
    (hreach : Reach (step cfg) ClosesUnqueued (ebSrvNew cfg) s)
    (hpc : s.pc t = .dispatch)
    (htk : Taken s.events t p events)
    (hcb : (events.ev p).cb = some .reacto_pool_client_write_callback) :
    closeSeen (events.ev p).fd s.log = false := by
  have hdesc := descriptors_of_reach hreach
  have htables := (orderly_of_reach (fun _ _ h => h.1) hreach).tables
  rw [htk.content.cb] at hcb
  rw [htk.content.fd]
  obtain ⟨hacc, harg, hwrite⟩ := (hdesc.ev p).client (d := .write) hcb
  have hmem : p ∈ s.events.readies t := htk.queue ▸ List.mem_cons_self
  have ht := htables.readyTid t p hmem
  rw [harg] at ht
  obtain ⟨d, fd, hslot⟩ := readyRegistered_of_reach hreach t p hmem
  obtain rfl : d = .write :=
    Dir.kide_injective ((htables.isFor _ _ _ _ hslot).symm.trans hwrite)
  obtain rfl := htables.fd _ _ _ _ hslot
  cases hseen : closeSeen (s.events.ev p).fd s.log with
  | false => rfl
  | true =>
      have hside := writeSide_of_reach (hdesc.accepted _ hacc).1 (fun _ _ h => h.1)
        hreach hseen
      have hreactor : Tid.reactor (cfg.reactorOf (s.events.ev p).fd) = t := ht
      rw [hreactor, hpc, hslot] at hside
      rcases hside with hc | ⟨hnone, -⟩
      · cases hc
      · cases hnone

/-- No `EB_WRITE` after a close in runs that close only what is not queued. -/
theorem noWriteAfterClose_of_reach
    (hreach : Reach (step cfg) ClosesUnqueued (ebSrvNew cfg) s) :
    NoWriteAfterClose fd s.log := by
  refine hreach.invariant_of (I := fun s => NoWriteAfterClose fd s.log)
    (J := fun s => Reach (step cfg) ClosesUnqueued (ebSrvNew cfg) s)
    (fun s hr => hr) always_nil ?_
  intro s a s' hr _ h _ hstep
  have hmove := step_move hstep
  have hquiet : ∀ {notes : List Note},
      (∀ x ∈ notes, ∀ c stream, x ≠ .called c .EB_WRITE stream) →
      NoWriteAfterClose fd (s.log ++ notes) := by
    intro notes hnotes
    refine Always.append h fun x hx past c stream he => ?_
    exact absurd he (hnotes x hx c stream)
  have hcallback : ∀ {c e stream}, e ≠ .EB_WRITE →
      ∀ x ∈ callback cfg c e stream, ∀ c' stream', x ≠ .called c' .EB_WRITE stream' := by
    intro c e stream he x hx c' stream'
    cases eq_called_of_mem_callback hx
    rintro ⟨⟩
    exact he rfl
  cases hmove with
  | @writable t _ p events i _ hpc htk hcb =>
      dsimp only [Server.note, callback]
      split
      · refine Always.append_singleton h ?_
        rintro c stream ⟨⟩ hfd
        have he : (events.ev p).fd = fd := by
          have hnat : (((events.ev p).fd : Nat) : Int) = (fd : Nat) := hfd
          exact Fin.ext (by omega)
        rw [← he]
        exact not_closeSeen_of_writable hr hpc htk (Event.cb_of_callback hcb)
      · simpa using h
  | announced => exact hquiet (hcallback (by decide))
  | rejected => exact hquiet (by simp)
  | accepted => exact hquiet (by simp)
  | received => exact hquiet (by simp)
  | refused => exact hquiet (by simp)
  | pushed => exact hquiet (by simp)
  | handled =>
      refine hquiet fun x hx => ?_
      rcases List.mem_cons.mp hx with rfl | hx
      · nofun
      · refine hcallback ?_ x hx
        split <;> decide
  | _ => exact h

end Steps

/-- **A removed event does not fire** in runs that remove no queued event: no
callback of a deregistered event is invoked by an event base, whatever its
callbacks do, and no `EB_WRITE` is called for a connection after the close of
its peer was seen. -/
theorem removed_never_fires
    {κ α : Type}
    (kides : Kides) (arg : α) (cfg : Cfg) :
    (∀ s : EventLoop.LoopState κ α,
      Reach EventLoop.step EventLoop.RemovesUnqueued (EventLoop.start kides arg) s →
        EventLoop.NeverFiresDeregistered s.log) ∧
    ∀ s : Server,
      Reach (step cfg) ClosesUnqueued (ebSrvNew cfg) s →
        ∀ fd, NoWriteAfterClose fd s.log := by
  constructor
  · intro s hreach
    exact EventLoop.neverFires_of_reach hreach
  · intro s hreach fd
    exact noWriteAfterClose_of_reach hreach

/-- An event is added, fires and is removed; a client of the small server sends
a byte and closes. -/
theorem removed_never_fires_one_event :
    (∃ s : EventLoop.LoopState Unit Unit,
      Reach EventLoop.step EventLoop.RemovesUnqueued (EventLoop.start ⟨true, true⟩ ()) s ∧
        s.log = [.added 1, .fired 1, .deleted 1] ∧
        EventLoop.NeverFiresDeregistered s.log) ∧
    ∃ s, Reach (step Small.cfg) ClosesUnqueued Small.start s ∧
      closeSeen 7 s.log = true ∧ NoWriteAfterClose 7 s.log := by
  constructor
  · have hstart : Reach EventLoop.step EventLoop.RemovesUnqueued
        (EventLoop.start ⟨true, true⟩ () : EventLoop.LoopState Unit Unit)
        (EventLoop.start ⟨true, true⟩ ()) := .start
    have hinit := hstart.next (a := .init 1 .read 5 (some ()) ())
      (by intro d fd; cases d <;> nofun) rfl
    obtain ⟨s, hreach, hcheck⟩ := reach_of_endsIn EventLoop.step EventLoop.KeepsQueued
      { base := ebotNew ⟨true, true⟩
        ev := update (fun _ => ⟨0, ⟨false, false⟩, false, none, ()⟩) 1
          (eventOf .read 5 (some ()) ())
        log := [] }
      .disabled
      [.add 1 (.strict true), .wait [⟨5, true, false, false⟩], .next, .del 1 true]
      (fun s => decide (s.log = [.added 1, .fired 1, .deleted 1]))
      (by decide +kernel)
    have hall := hinit.trans (hreach.mono fun _ _ h => h.removesUnqueued)
    exact ⟨s, hall, of_decide_eq_true hcheck, (removed_never_fires _ _ Small.cfg).1 s hall⟩
  · obtain ⟨s, hreach, hcheck⟩ := reach_of_endsIn (step Small.cfg)
      ClosesUnqueued Small.start .disabled
      (Small.boot ++ Small.client 7 ++ Small.chunk 7 ++ Small.peerClose 7)
      (fun s => closeSeen 7 s.log)
      (by decide +kernel)
    exact ⟨s, hreach, hcheck,
      (removed_never_fires (κ := Unit) ⟨true, true⟩ () Small.cfg).2 s hreach 7⟩

/-- Two events of a batch are queued, and the first callback removes both: the
second fires all the same.  In the server the second is `EB_WRITE`. -/
theorem not_removed_never_fires :
    (¬ ∀ s : EventLoop.LoopState Unit Unit,
      Reachable EventLoop.step (EventLoop.start ⟨true, true⟩ ()) s →
        EventLoop.NeverFiresDeregistered s.log) ∧
    ¬ ∀ s, Reachable (step Small.cfg) Small.start s →
      ∀ fd, NoWriteAfterClose fd s.log := by
  constructor
  · intro hall
    obtain ⟨s, hreach, hcheck⟩ := reachable_of_endsIn EventLoop.step
      (EventLoop.start ⟨true, true⟩ () : EventLoop.LoopState Unit Unit)
      [.init 1 .read 5 (some ()) (), .add 1 (.strict true),
        .init 2 .write 5 (some ()) (), .add 2 (.strict true),
        .wait [⟨5, true, true, false⟩], .next, .del 1 true, .del 2 true, .next]
      (fun s => decide (s.log =
        [.added 1, .added 2, .fired 1, .deleted 1] ++ [.deleted 2] ++ [.fired 2]))
      (by decide +kernel)
    rw [decide_eq_true_eq] at hcheck
    have hfired := hall s hreach
      ([.added 1, .added 2, .fired 1, .deleted 1] ++ [.deleted 2]) (.fired 2) [] hcheck
    exact hfired 2 rfl ⟨_, [], rfl, by simp⟩
  · intro hall
    obtain ⟨s, hreach, hcheck⟩ := reachable_of_endsIn (step Small.cfg) Small.start
      (Small.boot ++ Small.client 7 ++
        [.wait (.reactor 0) [Small.epollinout 7], Small.reactor, Small.recv .shutdown,
          Small.reactor, Small.reactor, Small.reactor, Small.reactor, Small.reactor])
      (fun s => closeSeen 7 s.log.dropLast && calledFor .EB_WRITE 7 s.log.getLast?.toList)
      (by decide +kernel)
    simp only [Bool.and_eq_true] at hcheck
    obtain ⟨hseen, hwrite⟩ := hcheck
    obtain ⟨c, stream, hlast, hfd⟩ := calledFor_iff.mp hwrite
    have hlog := List.dropLast_append_getLast? _ (Option.mem_toList.mp hlast)
    have hfalse := hall s hreach 7 _ _ [] hlog.symm c stream rfl hfd
    rw [hseen] at hfalse
    cases hfalse

end Ebot
