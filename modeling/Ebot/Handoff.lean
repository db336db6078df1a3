import Ebot.Lifetime

/-!
# The pipe of a reactor

The master hands an accepted descriptor to its reactor through a pipe, whose
read end is registered edge-triggered.  One run of the pipe callback takes one
descriptor.  The first half of this module shows that the event of the read end
stays registered; the second half follows the edge, as `Listener` does for the
listening socket.
-/

namespace Ebot

open Function EdgeSource EventState Transition

/-! ## The event of the pipe -/

/-- The event `p` is registered for the read end of the pipe. -/
structure PipeEvent (cfg : Cfg) (i : Nat) (E : EventState) (p : Nat) : Prop where
  slot : E.slot (.reactor i) .read (cfg.pipeFd i) = some p
  cb : (E.ev p).callback = some .reactor_pool_pipe_callback
  arg : (E.ev p).arg = .reactor i

/-- A reactor has registered its pipe, or registered nothing yet. -/
def PipeRegistered (cfg : Cfg) (i : Nat) (s : Server) : Prop :=
  (s.pc (.reactor i) = .boot ∧
      ∀ d fd, s.events.slot (.reactor i) d fd = none) ∨
    ∃ p, PipeEvent cfg i s.events p

namespace PipeEvent

variable {cfg : Cfg} {E E' : EventState} {i p q : Nat} {t : Tid} {d : Dir}
variable {e : SrvEvent} {ret : Int}

theorem opened
    (h : PipeEvent cfg i E p)
    (htables : Tables E)
    (hop : Opened E t d e q ret E') :
    PipeEvent cfg i E' p := by
  have hne : p ≠ q := by
    rintro rfl
    exact htables.not_slot_of_free hop.free h.slot
  have hev : E'.ev p = E.ev p := by
    rw [hop.ev, update_of_ne hne]
  refine ⟨?_, hev ▸ h.cb, hev ▸ h.arg⟩
  rw [hop.slot, h.slot]
  simp

theorem putBack
    (h : PipeEvent cfg i E p)
    (hput : PutBack E q E') :
    PipeEvent cfg i E' p := by
  refine ⟨?_, hput.ev ▸ h.cb, hput.ev ▸ h.arg⟩
  simpa only [EventState.slot, hput.base] using h.slot

/-- The close path removes events of other descriptors. -/
theorem closed
    {fd : Nat}
    (h : PipeEvent cfg i E p)
    (htables : Tables E)
    (hslot : E.slot t d fd = some q)
    (hfd : fd ≠ cfg.pipeFd i)
    (hcl : Closed E t q true E') :
    PipeEvent cfg i E' p := by
  refine ⟨?_, hcl.ev ▸ h.cb, hcl.ev ▸ h.arg⟩
  by_cases ht : Tid.reactor i = t
  · subst ht
    rw [hcl.slot d (htables.isFor _ _ _ _ hslot), if_neg]
    · exact h.slot
    · rintro ⟨-, -, he⟩
      rw [htables.fd _ _ _ _ hslot] at he
      exact hfd he.symm
  · rw [hcl.other _ ht]
    exact h.slot

theorem of_sameContent
    (h : PipeEvent cfg i E p)
    (hcontent : SameContent E E')
    (hslot : ∀ t d fd, E'.slot t d fd = E.slot t d fd) :
    PipeEvent cfg i E' p := by
  refine ⟨?_, ?_, ?_⟩
  · rw [hslot]
    exact h.slot
  · rw [hcontent.callback]
    exact h.cb
  · rw [hcontent.arg]
    exact h.arg

end PipeEvent

section Registered

variable {cfg : Cfg} {s s' : Server} {a : Action} {i p : Nat}

/-- One move keeps the event of the pipe. -/
theorem PipeEvent.move
    (h : PipeEvent cfg i s.events p)
    (hi : i < cfg.rsz)
    (horderly : Orderly cfg s)
    (hdesc : Descriptors cfg s)
    (hgood : RemovalsGranted s a)
    (hmove : Move cfg s a s') :
    PipeEvent cfg i s'.events p := by
  have htables := horderly.tables
  cases hmove with
  | booted _ _ hop => exact h.opened htables hop
  | waited _ _ _ hcol => exact h.of_sameContent hcol.content hcol.slot
  | ignored _ _ htk => exact h.of_sameContent htk.content htk.slot
  | started _ _ htk => exact h.of_sameContent htk.content htk.slot
  | writable _ _ htk => exact h.of_sameContent htk.content htk.slot
  | opened _ _ hop => exact h.opened htables hop
  | openFailed _ _ hop => exact h.opened htables hop
  | undone _ _ hput => exact h.putBack hput
  | @closed t _ d j fd _ _ _ _ hpc hslot hcl hgrant =>
      obtain rfl := htables.granted hpc hslot hgood hgrant
      refine h.closed htables hslot (fun he => ?_) hcl
      -- the descriptor of the connection was not open when the pipe was
      have hacc := hdesc.at_connection hpc rfl
      have hopened := cfg.pipe_opened i hi
      rw [← Fin.ext he, (hdesc.accepted fd hacc).1] at hopened
      cases hopened
  | _ => exact h

/-- One move. -/
theorem PipeRegistered.move
    (h : PipeRegistered cfg i s)
    (hi : i < cfg.rsz)
    (horderly : Orderly cfg s)
    (hdesc : Descriptors cfg s)
    (hgood : RemovalsGranted s a)
    (hmove : Move cfg s a s') :
    PipeRegistered cfg i s' := by
  rcases h with ⟨hpc, hnone⟩ | ⟨p, hp⟩
  · by_cases ha : a.thread = some (.reactor i)
    · right
      cases hmove with
      | @booted _ _ p _ _ _ hop =>
          cases ha
          refine ⟨p, ?_, ?_, ?_⟩
          · rw [Server.goto_events, hop.slot, hnone, if_pos ⟨rfl, rfl, rfl, rfl, rfl⟩]
          · rw [Server.goto_events, hop.ev, update_self]
            rfl
          · rw [Server.goto_events, hop.ev, update_self]
            rfl
      | _ => cases ha <;> simp_all only [reduceCtorEq]
    · left
      obtain ⟨-, hslot, -⟩ := hmove.reactor_frame horderly ha
      exact ⟨(hmove.pc_other ha).trans hpc, fun d fd => (hslot d fd).trans (hnone d fd)⟩
  · exact .inr ⟨p, hp.move hi horderly hdesc hgood hmove⟩

theorem pipeRegistered_of_reach
    {good : Server → Action → Prop}
    (hi : i < cfg.rsz)
    (hgranted : ∀ s a, good s a → RemovalsGranted s a)
    (hreach : Reach (step cfg) good (ebSrvNew cfg) s) :
    PipeRegistered cfg i s := by
  refine hreach.invariant_of (J := fun s => Orderly cfg s ∧ Descriptors cfg s)
    (fun s hr => ⟨orderly_of_reach hgranted hr, descriptors_of_reach hr⟩) ?_ ?_
  · refine .inl ⟨rfl, fun d fd => ?_⟩
    cases d <;> rfl
  · intro s a s' hJ _ h hgood hstep
    exact h.move hi hJ.1 hJ.2 (hgranted s a hgood) (step_move hstep)

end Registered

/-! ## The edge of the pipe -/

/-- The pipe callback runs only when an edge is pending or at most one
descriptor waits, and the close path removes only events that are not queued,
with the kernel's consent. -/
def PipeKeepsUp (s : Server) (a : Action) : Prop :=
  ClosesUnqueued s a ∧
    match a with
    | .run t _ =>
        match s.pc t with
        | .pipeRead i => (s.pipe i).edge = true ∨ (s.pipe i).items.length ≤ 1
        | _ => True
    | _ => True

instance (s : Server) : DecidablePred (PipeKeepsUp s)
  | .run t _ => by
      dsimp only [PipeKeepsUp]
      generalize s.pc t = pc
      rcases pc <;> infer_instance
  | .arrive | .wait _ _ | .work _ _ => inferInstanceAs (Decidable (ClosesUnqueued s _ ∧ True))

/-- Waiting descriptors have an edge, or the reactor is about to read one. -/
structure Fed (cfg : Cfg) (i : Nat) (s : Server) : Prop where
  idle : (s.pc (.reactor i)).waits = true → s.events.readies (.reactor i) = []
  fed : (s.pipe i).Covered ∨
    (∃ p ∈ s.events.readies (.reactor i), PipeEvent cfg i s.events p) ∨
    s.pc (.reactor i) = .pipeRead i

section Edge

variable {cfg : Cfg} {s s' : Server} {a : Action} {i : Nat}

theorem fed_ebSrvNew : Fed cfg i (ebSrvNew cfg) :=
  ⟨fun _ => rfl, .inl Source.covered_empty⟩

/-- A place of the reactor at which nothing is queued or about to be read. -/
theorem Fed.covered
    (h : Fed cfg i s)
    (hempty : s.events.readies (.reactor i) = [])
    (hpc : s.pc (.reactor i) ≠ .pipeRead i) :
    (s.pipe i).Covered := by
  rcases h.fed with hcov | ⟨p, hp, -⟩ | hread
  · exact hcov
  · rw [hempty] at hp
    cases hp
  · exact absurd hread hpc

/-- Steps of a callback that leave the queue alone. -/
theorem Fed.callback
    {pc : Pc}
    (h : Fed cfg i s)
    (hkeep : ∀ p, PipeEvent cfg i s.events p → PipeEvent cfg i s'.events p)
    (hold : s.pc (.reactor i) ≠ .pipeRead i)
    (hpc : s'.pc (.reactor i) = pc)
    (hbusy : pc.waits = false)
    (hready : s'.events.readies (.reactor i) = s.events.readies (.reactor i))
    (hpipe : s'.pipe i = s.pipe i ∨ (s'.pipe i).Covered) :
    Fed cfg i s' := by
  refine ⟨?_, ?_⟩
  · rw [hpc, hbusy]
    exact fun h => absurd h Bool.false_ne_true
  · rcases hpipe with hpipe | hcov
    · rw [hready, hpipe]
      rcases h.fed with hcov | ⟨p, hp, hevent⟩ | hread
      · exact .inl hcov
      · exact .inr (.inl ⟨p, hp, hkeep p hevent⟩)
      · exact absurd hread hold
    · exact .inl hcov

/-- The callback has run and left nobody without an edge. -/
theorem Fed.reading
    {pc : Pc}
    (hcov : (s'.pipe i).Covered)
    (hpc : s'.pc (.reactor i) = pc)
    (hbusy : pc.waits = false) :
    Fed cfg i s' := by
  refine ⟨?_, .inl hcov⟩
  rw [hpc, hbusy]
  exact fun h => absurd h Bool.false_ne_true

/-- A batch of reports at the reactor: when it consumes the edge, the event of
the pipe is queued. -/
theorem Fed.waited
    {reports : List Report} {events : EventState} {p : Nat} {backlog : Source Unit}
    {pipe : Nat → Source Fd}
    (h : Fed cfg i s)
    (htables : Tables s.events)
    (hp : PipeEvent cfg i s.events p)
    (hpc : s.pc (.reactor i) = .idle)
    (hmay : ∀ rep ∈ reports, mayReport cfg s (.reactor i) rep = true)
    (hcol : Collected s.events (.reactor i) reports events)
    (hpipe : pipe i = (s.pipe i).reportIf (reported reports (cfg.pipeFd i))) :
    Fed cfg i ({ s with events, backlog, pipe }.goto (.reactor i) .dispatch) := by
  refine ⟨by simp [Pc.waits], ?_⟩
  have hcov := h.covered (h.idle (Pc.waits_iff.mpr (.inl hpc))) (by simp [hpc])
  cases hrep : reported reports (cfg.pipeFd i) with
  | false =>
      left
      rw [hrep, Source.reportIf_false] at hpipe
      simpa [hpipe] using hcov
  | true =>
      right
      left
      obtain ⟨rep, hmem, hfd', hin⟩ := reports_read_of_reported hmay hrep
      have hqueued := hcol.selected rep hmem .read p hin (hfd' ▸ hp.slot)
      have hp' := hp.of_sameContent hcol.content hcol.slot
      exact ⟨p, (htables.collected hcol).queued _ _ _ _ hp'.slot hqueued, hp'⟩

/-- An event of the reactor is taken from its queue: unless it is the one of the
pipe, that stays queued. -/
theorem Fed.taken
    {q : Nat} {events : EventState}
    (h : Fed cfg i s)
    (hpc : s.pc (.reactor i) = .dispatch)
    (htk : Taken s.events (.reactor i) q events) :
    (s.pipe i).Covered ∨
      (∃ p ∈ events.readies (.reactor i), PipeEvent cfg i events p) ∨
      PipeEvent cfg i events q := by
  rcases h.fed with hcov | ⟨p, hp, hevent⟩ | hread
  · exact .inl hcov
  · right
    have hevent' := hevent.of_sameContent htk.content htk.slot
    rw [htk.queue, List.mem_cons] at hp
    rcases hp with rfl | hp
    · exact .inr hevent'
    · exact .inl ⟨p, hp, hevent'⟩
  · rw [hpc] at hread
    cases hread

/-- One step of the reactor that keeps up. -/
theorem Fed.move_reactor
    (h : Fed cfg i s)
    (horderly : Orderly cfg s)
    (hregistered : PipeRegistered cfg i s)
    (hkeep : ∀ p, PipeEvent cfg i s.events p → PipeEvent cfg i s'.events p)
    (hgood : PipeKeepsUp s a)
    (hmove : Move cfg s a s')
    (ha : a.thread = some (.reactor i)) :
    Fed cfg i s' := by
  have hacts : ∀ {pc}, s.pc (.reactor i) = pc → pc.ActsFor cfg (.reactor i) :=
    fun hpc => hpc ▸ horderly.acts _
  have hself : ∀ {s₁ : Server} {pc}, (s₁.goto (.reactor i) pc).pc (.reactor i) = pc :=
    Server.goto_pc_self
  cases hmove with
  | arrived => cases ha
  | woke => cases ha
  | handled => cases ha
  | emptied => cases ha
  | booted _ hpc hop =>
      cases ha
      have hempty := h.idle (Pc.waits_iff.mpr (.inr hpc))
      exact ⟨fun _ => (hop.readies _).trans hempty, .inl (h.covered hempty (by simp [hpc]))⟩
  | waited _ hpc hmay hcol =>
      cases ha
      rcases hregistered with ⟨hboot, -⟩ | ⟨p, hp⟩
      · rw [hboot] at hpc
        cases hpc
      · exact h.waited horderly.tables hp hpc hmay hcol (by simp)
  | drained _ hpc hempty =>
      cases ha
      exact ⟨fun _ => hempty, .inl (h.covered hempty (by simp [hpc]))⟩
  | ignored _ hpc htk hcb =>
      cases ha
      refine ⟨by simp [hpc, Pc.waits], ?_⟩
      rcases h.taken hpc htk with hcov | hready | hevent
      · exact .inl hcov
      · exact .inr (.inl hready)
      · rw [hevent.cb] at hcb
        cases hcb
  | writable _ hpc htk hcb =>
      cases ha
      refine ⟨by simp [hpc, Pc.waits], ?_⟩
      rcases h.taken hpc htk with hcov | hready | hevent
      · exact .inl hcov
      · exact .inr (.inl hready)
      · rw [hevent.cb] at hcb
        cases hcb
  | @started t _ q events cb pc _ hpc htk hcb hstart =>
      cases ha
      refine ⟨?_, ?_⟩
      · rw [hself, Pc.waits_start hstart]
        exact fun h => absurd h Bool.false_ne_true
      · rcases h.taken hpc htk with hcov | hready | hevent
        · exact .inl hcov
        · exact .inr (.inl hready)
        · right
          right
          rw [hevent.cb] at hcb
          cases hcb
          rw [hevent.arg] at hstart
          cases hstart
          exact hself
  | acceptFailed _ hpc =>
      cases ha
      exact h.callback hkeep (by simp [hpc]) hself rfl rfl (.inl rfl)
  | rejected _ hpc =>
      cases ha
      exact h.callback hkeep (by simp [hpc]) hself rfl rfl (.inl rfl)
  | accepted _ hpc =>
      cases ha
      exact h.callback hkeep (by simp [hpc]) hself rfl rfl (.inl rfl)
  | @handedOff _ _ fd _ hpc =>
      cases ha
      refine h.callback hkeep (by simp [hpc]) hself rfl rfl ?_
      by_cases hi : i = cfg.reactorOf fd
      · subst hi
        right
        simpa using Source.covered_arrive
      · exact .inl (by simp [update_of_ne hi])
  | handOffFailed _ hpc =>
      cases ha
      exact h.callback hkeep (by simp [hpc]) hself rfl rfl (.inl rfl)
  | announced _ hpc =>
      cases ha
      exact h.callback hkeep (by simp [hpc]) hself rfl rfl (.inl rfl)
  | counted _ hpc =>
      cases ha
      exact h.callback hkeep (by simp [hpc]) hself rfl rfl (.inl rfl)
  | pipeEmpty _ hpc hitems =>
      cases ha
      cases hacts hpc
      exact .reading (fun hne => absurd hitems hne) hself rfl
  | @pipeTaken _ _ j fd rest _ hpc hitems =>
      cases ha
      cases hacts hpc
      obtain ⟨-, hup⟩ := hgood
      simp only [hpc, hitems] at hup
      refine .reading ?_ hself rfl
      dsimp only [Server.goto_pipe]
      rw [update_self]
      refine Source.covered_leave (hup.imp_right fun hlen => ?_)
      simpa using hlen
  | exhausted _ hpc =>
      cases ha
      exact h.callback hkeep (by simp [hpc]) hself rfl rfl (.inl rfl)
  | @opened _ _ d _ _ _ _ _ hpc hop =>
      cases ha
      exact h.callback hkeep (by simp [hpc]) hself Pc.waits_opened (hop.readies _) (.inl rfl)
  | openFailed _ hpc hop =>
      cases ha
      exact h.callback hkeep (by simp [hpc]) hself rfl (hop.readies _) (.inl rfl)
  | @undone _ _ d _ _ _ _ _ hpc hput =>
      cases ha
      exact h.callback hkeep (by simp [hpc]) hself Pc.waits_opened
        (by simp [EventState.readies, hput.base]) (.inl rfl)
  | received _ hpc =>
      cases ha
      exact h.callback hkeep (by simp [hpc]) hself Pc.waits_received rfl (.inl rfl)
  | @closedNone _ _ d _ _ _ hpc =>
      cases ha
      exact h.callback hkeep (by simp [hpc]) hself Pc.waits_closed rfl (.inl rfl)
  | @closed _ _ d _ _ _ _ _ _ hpc _ hcl =>
      cases ha
      exact h.callback hkeep (by simp [hpc]) hself Pc.waits_closed (hcl.readies _) (.inl rfl)
  | refused _ hpc =>
      cases ha
      exact h.callback hkeep (by simp [hpc]) hself rfl rfl (.inl rfl)
  | pushed _ hpc =>
      cases ha
      exact h.callback hkeep (by simp [hpc]) hself rfl rfl (.inl rfl)
  | notified _ hpc =>
      cases ha
      exact h.callback hkeep (by simp [hpc]) hself rfl rfl (.inl rfl)

/-- One move that keeps up. -/
theorem Fed.move
    (h : Fed cfg i s)
    (hi : i < cfg.rsz)
    (horderly : Orderly cfg s)
    (hdesc : Descriptors cfg s)
    (hregistered : PipeRegistered cfg i s)
    (hgood : PipeKeepsUp s a)
    (hmove : Move cfg s a s') :
    Fed cfg i s' := by
  have hkeep : ∀ p, PipeEvent cfg i s.events p → PipeEvent cfg i s'.events p :=
    fun p hp => hp.move hi horderly hdesc hgood.1.1 hmove
  by_cases ha : a.thread = some (.reactor i)
  · exact h.move_reactor horderly hregistered hkeep hgood hmove ha
  · have hpc := hmove.pc_other ha
    obtain ⟨hready, -, hpipe⟩ := hmove.reactor_frame horderly ha
    refine ⟨?_, ?_⟩
    · rw [hpc, hready]
      exact h.idle
    · rw [hpc, hready]
      rcases hpipe with hpipe | hcov
      · rw [hpipe]
        exact h.fed.imp_right (.imp_left fun ⟨p, hp, hevent⟩ => ⟨p, hp, hkeep p hevent⟩)
      · exact .inl hcov

end Edge

/-- **No connection is stranded in the pipe** of any run in which every run of
the pipe callback finds an edge or at most one descriptor, and the close path
removes only events that are not queued, with the kernel's consent: while a
reactor is not inside `dispatch_events`, waiting descriptors have a pending
edge. -/
theorem pipe_attended
    {cfg : Cfg} {s : Server} {i : Nat}
    (hi : i < cfg.rsz)
    (hreach : Reach (step cfg) PipeKeepsUp (ebSrvNew cfg) s)
    (hout : s.pc (.reactor i) = .idle ∨ s.pc (.reactor i) = .boot) :
    (s.pipe i).Covered := by
  have h : Fed cfg i s := by
    refine hreach.invariant_of
      (J := fun s => Orderly cfg s ∧ Descriptors cfg s ∧ PipeRegistered cfg i s)
      (fun s hr => ⟨orderly_of_reach (fun _ _ h => h.1.1) hr, descriptors_of_reach hr,
        pipeRegistered_of_reach hi (fun _ _ h => h.1.1) hr⟩) fed_ebSrvNew ?_
    rintro s a s' ⟨horderly, hdesc, hregistered⟩ - h hgood hstep
    exact h.move hi horderly hdesc hregistered hgood (step_move hstep)
  refine h.covered (h.idle (Pc.waits_iff.mpr hout)) ?_
  rcases hout with hpc | hpc <;> simp [hpc]

/-- A client is registered, and a second one waits in the pipe with an edge. -/
theorem pipe_attended_two_clients :
    ∃ s, Reach (step Small.cfg) PipeKeepsUp Small.start s ∧
      s.pc (.reactor 0) = .idle ∧ (s.pipe 0).items = [8] ∧ (s.pipe 0).edge = true := by
  obtain ⟨s, hreach, hcheck⟩ := reach_of_endsIn (step Small.cfg)
    PipeKeepsUp Small.start .disabled
    (Small.boot ++ Small.client 7 ++ Small.handOff 8)
    (fun s =>
      decide (s.pc (.reactor 0) = .idle) && decide ((s.pipe 0).items = [8]))
    (by decide +kernel)
  simp only [Bool.and_eq_true, decide_eq_true_eq] at hcheck
  obtain ⟨hidle, hitems⟩ := hcheck
  have hcov := pipe_attended (by decide) hreach (.inl hidle)
  exact ⟨s, hreach, hidle, hitems, hcov (by simp [hitems])⟩

/-- Two clients are handed off before the reactor wakes: it takes one, and the
other is left in the pipe without an edge. -/
theorem not_pipe_attended :
    ¬ ∀ s, Reachable (step Small.cfg) Small.start s →
      s.pc (.reactor 0) = .idle ∨ s.pc (.reactor 0) = .boot → (s.pipe 0).Covered := by
  intro hall
  obtain ⟨s, hreach, hcheck⟩ := reachable_of_endsIn (step Small.cfg) Small.start
    (Small.boot ++ Small.handOff 7 ++ Small.connect ++ Small.handOff 8 ++
      Small.connect ++ Small.register)
    (fun s =>
      decide (s.pc (.reactor 0) = .idle) && decide ((s.pipe 0).items = [8]) &&
        !(s.pipe 0).edge)
    (by decide +kernel)
  simp only [Bool.and_eq_true, decide_eq_true_eq, Bool.not_eq_true'] at hcheck
  obtain ⟨⟨hidle, hitems⟩, hedge⟩ := hcheck
  have hcov := hall s hreach (.inl hidle) (by simp [hitems])
  rw [hedge] at hcov
  cases hcov

end Ebot
