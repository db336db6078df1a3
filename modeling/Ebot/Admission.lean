import Ebot.Teardown

/-!
# How many connections are admitted

`ebot_srv_accept` compares `total_conns` with `max_connections` before it counts
the new connection, and turns it away only when the count is above the limit.  So
one connection more than the limit is admitted, and until one of them is closed
one more than the limit is live.
-/

namespace Ebot

open Function EdgeSource EventState Transition

/-- The connection the master has accepted and not yet announced. -/
def Pc.unannounced : Pc → Option Fd
  | .handOff fd | .announce fd => some fd
  | .boot | .idle | .dispatch | .accept | .count | .pipeRead _ | .opening _ _ _
  | .undoing _ _ _ _ | .recv _ _ | .closing _ _ _ | .pushing _ _ _ | .notify _ => none

/-- The descriptors for which `EB_CONNECT` was called, in order. -/
def connectsOf (log : List Note) : List Int :=
  log.filterMap fun
    | .called _ .EB_CONNECT stream => some stream.fd
    | _ => none

/-- What the announcement of a connection adds to it. -/
def announcement (cfg : Cfg) (fd : Fd) : List Int :=
  if cfg.callbacks .EB_CONNECT then [((fd : Nat) : Int)] else []

/-- Connections admitted: accepted, kept open and announced. -/
def admitted (s : Server) : List Fd :=
  (acceptedOf s.log).filter fun fd => (s.pc .master).unannounced != some fd

/-- Those of them that have not been closed. -/
def live (s : Server) : List Fd :=
  (admitted s).filter fun fd => !closeSeen fd s.log

/-- The close of a connection that was accepted has been seen. -/
def SomeClosed (s : Server) : Prop :=
  ∃ fd ∈ acceptedOf s.log, closeSeen fd s.log = true

instance (s : Server) : Decidable (SomeClosed s) :=
  -- not by trying all descriptors
  List.decidableBEx (fun fd => closeSeen fd s.log = true) (acceptedOf s.log)

/-- A connection is announced only while fewer than `max_connections` have been
counted, or after a close. -/
def AnnouncesBelowLimit (cfg : Cfg) (s : Server) : Action → Prop
  | .run t _ =>
      match s.pc t with
      | .announce _ => s.total_conns < cfg.setting.max_connections ∨ SomeClosed s
      | _ => True
  | _ => True

instance (cfg : Cfg) (s : Server) : DecidablePred (AnnouncesBelowLimit cfg s)
  | .run t _ => by
      dsimp only [AnnouncesBelowLimit]
      generalize s.pc t = pc
      rcases pc <;> infer_instance
  | .arrive | .wait _ _ | .work _ _ => isTrue trivial

section Steps

variable {cfg : Cfg} {s s' : Server} {a : Action} {t : Tid} {fd : Fd} {env : Env}

theorem connectsOf_append
    {log notes : List Note} :
    connectsOf (log ++ notes) = connectsOf log ++ connectsOf notes :=
  List.filterMap_append

/-- The other callbacks announce nothing. -/
theorem connectsOf_callback
    {c : Caller} {e : EbEvent} {stream : EbStream}
    (he : e ≠ .EB_CONNECT) :
    connectsOf (callback cfg c e stream) = [] := by
  unfold callback
  split
  · cases e <;> first | rfl | exact absurd rfl he
  · rfl

theorem connectsOf_connect
    {c : Caller} {stream : EbStream} :
    connectsOf (callback cfg c .EB_CONNECT stream) =
      if cfg.callbacks .EB_CONNECT then [stream.fd] else [] := by
  unfold callback
  split <;> rfl

theorem Pc.unannounced_start
    {cb : Callback} {arg : Arg} {pc : Pc}
    (h : Pc.start fd cb arg = some pc) :
    pc.unannounced = none := by
  cases cb <;> cases arg <;> cases h <;> rfl

theorem Pc.unannounced_received
    {i : Nat} {r : RecvResult} :
    (Pc.received i fd r).unannounced = none := by
  rcases Pc.received_cases i fd r with ⟨-, h⟩ | ⟨-, h⟩ | ⟨-, -, h⟩ <;> rw [h] <;> rfl

/-- What a move does to the connections: nothing, or the master accepts one, or
it announces one. -/
inductive Admits (cfg : Cfg) (s : Server) (a : Action) (s' : Server) : Prop
  | nothing :
      acceptedOf s'.log = acceptedOf s.log →
      connectsOf s'.log = connectsOf s.log →
      (s'.pc .master).unannounced = (s.pc .master).unannounced →
      Admits cfg s a s'
  | accepted {fd : Fd} :
      s.pc .master = .accept →
      s.isOpen fd = false →
      s.total_conns ≤ cfg.setting.max_connections →
      acceptedOf s'.log = acceptedOf s.log ++ [fd] →
      connectsOf s'.log = connectsOf s.log →
      s'.pc .master = .handOff fd →
      Admits cfg s a s'
  | announced {fd : Fd} {env : Env} :
      a = .run .master env →
      s.pc .master = .announce fd →
      acceptedOf s'.log = acceptedOf s.log →
      connectsOf s'.log = connectsOf s.log ++ announcement cfg fd →
      s'.pc .master = .count →
      Admits cfg s a s'

/-- Every move of a server where only the master runs the accept path admits so. -/
theorem Move.admits
    (halone : MasterAlone cfg s)
    (hmove : Move cfg s a s') :
    Admits cfg s a s' := by
  have hgoto : ∀ {s₁ : Server} {t pc₀ pc}, s.pc t = pc₀ → s₁.pc = s.pc →
      pc.unannounced = pc₀.unannounced →
      ((s₁.goto t pc).pc .master).unannounced = (s.pc .master).unannounced :=
    Server.apply_pc_goto Pc.unannounced .master
  have haccepted : ∀ {notes}, acceptedOf notes = [] →
      acceptedOf (s.log ++ notes) = acceptedOf s.log := by
    intro notes hnotes
    rw [acceptedOf_append, hnotes, List.append_nil]
  have hconnects : ∀ {notes}, connectsOf notes = [] →
      connectsOf (s.log ++ notes) = connectsOf s.log := by
    intro notes hnotes
    rw [connectsOf_append, hnotes, List.append_nil]
  cases hmove with
  | arrived => exact .nothing rfl rfl rfl
  | booted _ hpc => exact .nothing rfl rfl (hgoto hpc rfl rfl)
  | waited _ hpc => exact .nothing rfl rfl (hgoto hpc rfl rfl)
  | drained _ hpc => exact .nothing rfl rfl (hgoto hpc rfl rfl)
  | ignored => exact .nothing rfl rfl rfl
  | writable =>
      exact .nothing (haccepted acceptedOf_callback)
        (hconnects (connectsOf_callback nofun)) rfl
  | started _ hpc _ _ hstart =>
      exact .nothing rfl rfl (hgoto hpc rfl (Pc.unannounced_start hstart))
  | acceptFailed _ hpc => exact .nothing rfl rfl (hgoto hpc rfl rfl)
  | rejected _ hpc =>
      exact .nothing (haccepted rfl) (hconnects rfl) (hgoto hpc rfl rfl)
  | @accepted t _ fd _ _ hpc _ _ hopen hroom =>
      obtain rfl := halone.eq_master hpc rfl
      exact .accepted hpc hopen (by omega) acceptedOf_append (hconnects rfl)
        Server.goto_pc_self
  | handedOff _ hpc => exact .nothing rfl rfl (hgoto hpc rfl rfl)
  | handOffFailed _ hpc => exact .nothing rfl rfl (hgoto hpc rfl rfl)
  | @announced t env fd _ hpc =>
      obtain rfl := halone.eq_master hpc rfl
      refine .announced rfl hpc (haccepted acceptedOf_callback) ?_ Server.goto_pc_self
      rw [Server.goto_log, Server.note_log, connectsOf_append, connectsOf_connect]
      rfl
  | counted _ hpc => exact .nothing rfl rfl (hgoto hpc rfl rfl)
  | pipeEmpty _ hpc => exact .nothing rfl rfl (hgoto hpc rfl rfl)
  | pipeTaken _ hpc => exact .nothing rfl rfl (hgoto hpc rfl rfl)
  | exhausted _ hpc => exact .nothing rfl rfl (hgoto hpc rfl rfl)
  | @opened _ _ d _ _ _ _ _ hpc =>
      exact .nothing rfl rfl (hgoto hpc rfl (by cases d <;> rfl))
  | openFailed _ hpc => exact .nothing rfl rfl (hgoto hpc rfl rfl)
  | @undone _ _ d _ _ _ _ _ hpc =>
      exact .nothing rfl rfl (hgoto hpc rfl (by cases d <;> rfl))
  | received _ hpc =>
      exact .nothing (haccepted rfl) (hconnects rfl)
        (hgoto hpc rfl Pc.unannounced_received)
  | @closedNone _ _ d _ _ _ hpc =>
      exact .nothing rfl rfl (hgoto hpc rfl (by cases d <;> rfl))
  | @closed _ _ d _ _ _ _ _ _ hpc =>
      exact .nothing rfl rfl (hgoto hpc rfl (by cases d <;> rfl))
  | refused _ hpc =>
      exact .nothing (haccepted rfl) (hconnects rfl) (hgoto hpc rfl rfl)
  | pushed _ hpc =>
      exact .nothing (haccepted rfl) (hconnects rfl) (hgoto hpc rfl rfl)
  | notified _ hpc => exact .nothing rfl rfl (hgoto hpc rfl rfl)
  | woke => exact .nothing rfl rfl rfl
  | @handled _ _ _ _ _ stream =>
      refine .nothing (haccepted acceptedOf_callback) (hconnects ?_) rfl
      refine connectsOf_callback ?_
      split <;> nofun
  | emptied => exact .nothing rfl rfl rfl

/-- A close stays seen. -/
theorem Move.keeps_closeSeen
    (hmove : Move cfg s a s')
    (h : closeSeen fd s.log = true) :
    closeSeen fd s'.log = true := by
  obtain ⟨notes, hlog⟩ := hmove.log_append
  rw [hlog, closeSeen_append, h, Bool.true_or]

theorem SomeClosed.move
    (h : SomeClosed s)
    (hmove : Move cfg s a s') :
    SomeClosed s' := by
  obtain ⟨fd, hacc, hclosed⟩ := h
  obtain ⟨notes, hlog⟩ := hmove.log_append
  refine ⟨fd, ?_, hmove.keeps_closeSeen hclosed⟩
  rw [hlog, acceptedOf_append]
  exact List.mem_append_left _ hacc

/-! ## The bound that the comparison gives -/

/-- At most one connection more than the limit is ever accepted. -/
def OneOverLimit (cfg : Cfg) (s : Server) : Prop :=
  ((acceptedOf s.log).length : Int) ≤ cfg.setting.max_connections + 1

/-- While the master is in no accept, `total_conns` counts all. -/
theorem Counted.eq_length
    (h : Counted s)
    (hpc : (s.pc .master).uncounted = false) :
    s.total_conns = (acceptedOf s.log).length := by
  unfold Counted at h
  rw [hpc, if_neg (by simp)] at h
  omega

theorem Counted.succ_eq_length
    (h : Counted s)
    (hpc : (s.pc .master).uncounted = true) :
    s.total_conns + 1 = (acceptedOf s.log).length := by
  unfold Counted at h
  rw [hpc, if_pos rfl] at h
  exact h

theorem oneOverLimit_of_reach
    {good : Server → Action → Prop}
    (hmax : 0 ≤ cfg.setting.max_connections)
    (hreach : Reach (step cfg) good (ebSrvNew cfg) s) :
    OneOverLimit cfg s := by
  refine hreach.invariant_of (J := fun s => MasterAlone cfg s ∧ Counted s)
    (fun s hr => ⟨masterAlone_of_reach hr, counted_of_reach hr⟩) ?_ ?_
  · have hnil : acceptedOf (ebSrvNew cfg).log = [] := rfl
    unfold OneOverLimit
    rw [hnil, List.length_nil]
    omega
  · rintro s a s' ⟨halone, hcounted⟩ - h - hstep
    unfold OneOverLimit at h ⊢
    cases (step_move hstep).admits halone with
    | nothing haccepted =>
        rw [haccepted]
        exact h
    | accepted hpc _ hroom haccepted =>
        have htotal := hcounted.eq_length (by rw [hpc]; rfl)
        rw [haccepted, List.length_append, List.length_singleton]
        push_cast
        omega
    | announced _ _ haccepted =>
        rw [haccepted]
        exact h

/-! ## Live connections -/

theorem live_length_le :
    (live s).length ≤ (admitted s).length :=
  List.length_filter_le _ _

theorem admitted_length_le :
    (admitted s).length ≤ (acceptedOf s.log).length :=
  List.length_filter_le _ _

/-- With nothing under way all that were accepted are admitted. -/
theorem admitted_eq
    (hpc : (s.pc .master).unannounced = none) :
    admitted s = acceptedOf s.log := by
  unfold admitted
  rw [hpc]
  exact List.filter_eq_self.mpr fun _ _ => rfl

/-- If all that were accepted are admitted, a close makes them fewer. -/
theorem SomeClosed.live_lt
    (h : SomeClosed s)
    (hall : (admitted s).length = (acceptedOf s.log).length) :
    (live s).length < (admitted s).length := by
  obtain ⟨fd, hacc, hclosed⟩ := h
  have heq : admitted s = acceptedOf s.log := List.filter_sublist.eq_of_length hall
  refine List.length_filter_lt_length_iff_exists.mpr ⟨fd, heq ▸ hacc, ?_⟩
  simp [hclosed]

/-- If nothing was closed all that are admitted are live. -/
theorem live_eq
    (h : ¬ SomeClosed s) :
    live s = admitted s := by
  refine List.filter_eq_self.mpr fun fd hfd => ?_
  have hacc : fd ∈ acceptedOf s.log := (List.mem_filter.mp hfd).1
  cases hclosed : closeSeen fd s.log with
  | false => rfl
  | true => exact absurd ⟨fd, hacc, hclosed⟩ h

/-- The admitted are within the limit, or one was closed. -/
def WithinOrClosed (cfg : Cfg) (s : Server) : Prop :=
  ((admitted s).length : Int) ≤ cfg.setting.max_connections ∨ SomeClosed s

/-- One move. -/
theorem WithinOrClosed.move
    (h : WithinOrClosed cfg s)
    (halone : MasterAlone cfg s)
    (hcounted : Counted s)
    (hgood : AnnouncesBelowLimit cfg s a)
    (hmove : Move cfg s a s') :
    WithinOrClosed cfg s' := by
  rcases h with hle | hclosed
  · cases hmove.admits halone with
    | nothing haccepted _ hpc =>
        refine .inl ?_
        unfold admitted
        rw [haccepted, hpc]
        exact hle
    | @accepted fd hpc _ _ haccepted _ hpc' =>
        -- the connection accepted is not yet admitted
        refine .inl ?_
        have hold : admitted s = acceptedOf s.log := admitted_eq (by rw [hpc]; rfl)
        have hnew : admitted s' =
            (acceptedOf s.log).filter fun fd' => some fd != some fd' := by
          unfold admitted
          rw [haccepted, hpc', List.filter_append]
          simp [Pc.unannounced]
        have hfilter := List.length_filter_le (fun fd' => some fd != some fd')
          (acceptedOf s.log)
        rw [← hnew, ← hold] at hfilter
        omega
    | announced ha hpc haccepted _ hpc' =>
        subst ha
        dsimp only [AnnouncesBelowLimit] at hgood
        rw [hpc] at hgood
        rcases hgood with hroom | hclosed
        · refine .inl ?_
          have htotal := hcounted.succ_eq_length (by rw [hpc]; rfl)
          rw [admitted_eq (by rw [hpc']; rfl), haccepted]
          omega
        · exact .inr (hclosed.move hmove)
  · exact .inr (hclosed.move hmove)

theorem withinOrClosed_of_reach
    (hmax : 0 ≤ cfg.setting.max_connections)
    (hreach : Reach (step cfg) (AnnouncesBelowLimit cfg) (ebSrvNew cfg) s) :
    WithinOrClosed cfg s := by
  refine hreach.invariant_of (J := fun s => MasterAlone cfg s ∧ Counted s)
    (fun s hr => ⟨masterAlone_of_reach hr, counted_of_reach hr⟩) (.inl hmax) ?_
  rintro s a s' ⟨halone, hcounted⟩ - h hgood hstep
  exact h.move halone hcounted hgood (step_move hstep)

/-- Within the limit, or one closed, bounds the live connections. -/
theorem WithinOrClosed.live_le
    (h : WithinOrClosed cfg s)
    (hover : OneOverLimit cfg s) :
    ((live s).length : Int) ≤ cfg.setting.max_connections := by
  have hlive := live_length_le (s := s)
  rcases h with hle | hclosed
  · omega
  · unfold OneOverLimit at hover
    have hadmitted := admitted_length_le (s := s)
    by_cases hall : (admitted s).length = (acceptedOf s.log).length
    · have hlt := hclosed.live_lt hall
      omega
    · omega

/-- The step by which the master announces a connection. -/
theorem step_announce
    (env : Env)
    (hpc : s.pc .master = .announce fd) :
    step cfg s (.run .master env) = .ok (acceptAnnounce cfg s .master fd) := by
  refine bind_eq_ok.mpr ⟨(), require_eq_ok.mpr trivial, ?_⟩
  unfold runThread
  rw [hpc]

/-- Right after an announcement all that were accepted are admitted. -/
theorem admitted_announced :
    admitted (acceptAnnounce cfg s .master fd) = acceptedOf s.log := by
  have hlog : acceptedOf (acceptAnnounce cfg s .master fd).log = acceptedOf s.log := by
    unfold acceptAnnounce
    rw [Server.goto_log, Server.note_log, acceptedOf_append, acceptedOf_callback,
      List.append_nil]
  have hpc : ((acceptAnnounce cfg s .master fd).pc .master).unannounced = none := by
    unfold acceptAnnounce
    rw [Server.goto_pc_self]
    rfl
  rw [admitted_eq hpc, hlog]

/-- An announcement closes nothing. -/
theorem someClosed_announced :
    SomeClosed (acceptAnnounce cfg s .master fd) ↔ SomeClosed s := by
  unfold SomeClosed acceptAnnounce
  rw [Server.goto_log, Server.note_log, acceptedOf_append, acceptedOf_callback,
    List.append_nil]
  simp only [closeSeen_append_of_false closeSeen_callback]

/-- The live connections are within the limit after an announcement only if
there was room for one more or one had been closed. -/
theorem live_announced_le_iff
    (hmax : 0 ≤ cfg.setting.max_connections)
    (hreach : Reachable (step cfg) (ebSrvNew cfg) s)
    (hpc : s.pc .master = .announce fd) :
    ((live (acceptAnnounce cfg s .master fd)).length : Int) ≤
        cfg.setting.max_connections ↔
      s.total_conns < cfg.setting.max_connections ∨ SomeClosed s := by
  have htotal := (counted_of_reach hreach).succ_eq_length (by rw [hpc]; rfl)
  have hlength : (admitted (acceptAnnounce cfg s .master fd)).length =
      (acceptedOf s.log).length := congrArg List.length admitted_announced
  constructor
  · intro hle
    by_contra hnot
    obtain ⟨hfull, hopen⟩ := not_or.mp hnot
    rw [live_eq (mt someClosed_announced.mp hopen), hlength] at hle
    omega
  · rintro (hroom | hclosed)
    · have hlive := live_length_le (s := acceptAnnounce cfg s .master fd)
      omega
    · have hreach' := hreach.next trivial (step_announce Small.env hpc)
      have hclosed' : SomeClosed (acceptAnnounce cfg s .master fd) :=
        someClosed_announced.mpr hclosed
      exact WithinOrClosed.live_le (.inr hclosed') (oneOverLimit_of_reach hmax hreach')

end Steps

section Result

/-- **The limit holds but at one announcement.**  In a run in which every
connection is announced while fewer than `max_connections` have been counted, or
after a close, at most `max_connections` connections are live.  An announcement in
any other state leaves one more than that. -/
theorem connections_within_limit
    (cfg : Cfg)
    (hmax : 1 ≤ cfg.setting.max_connections) :
    (∀ s, Reach (step cfg) (AnnouncesBelowLimit cfg) (ebSrvNew cfg) s →
      ((live s).length : Int) ≤ cfg.setting.max_connections) ∧
    ∀ s fd env s', Reachable (step cfg) (ebSrvNew cfg) s →
      s.pc .master = .announce fd → step cfg s (.run .master env) = .ok s' →
      (((live s').length : Int) ≤ cfg.setting.max_connections ↔
        AnnouncesBelowLimit cfg s (.run .master env)) := by
  have hmax' : 0 ≤ cfg.setting.max_connections := by omega
  constructor
  · intro s hreach
    exact (withinOrClosed_of_reach hmax' hreach).live_le (oneOverLimit_of_reach hmax' hreach)
  · intro s fd env s' hreach hpc hstep
    rw [step_announce env hpc] at hstep
    cases hstep
    dsimp only [AnnouncesBelowLimit]
    rw [hpc]
    exact live_announced_le_iff hmax' hreach hpc

/-- The small server with a limit of one connection. -/
def Small.narrow : Cfg :=
  { Small.cfg with
    setting := ⟨8, 1, 1, 1⟩
    pipe_opened := Small.cfg.pipe_opened }

/-- It admits one client. -/
theorem connections_within_limit_narrow :
    ∃ s, Reach (step Small.narrow) (AnnouncesBelowLimit Small.narrow)
        (ebSrvNew Small.narrow) s ∧
      live s = [7] ∧ ((live s).length : Int) ≤ 1 := by
  obtain ⟨s, hreach, hlive⟩ :=
    reach_of_endsIn (step Small.narrow) (AnnouncesBelowLimit Small.narrow)
      (ebSrvNew Small.narrow) .disabled (Small.boot ++ Small.client 7)
      (fun s => decide (live s = [7])) (by decide +kernel)
  exact ⟨s, hreach, of_decide_eq_true hlive,
    (connections_within_limit Small.narrow (by decide)).1 s hreach⟩

/-- It admits a second client while the first is connected. -/
theorem not_connections_within_limit :
    ¬ ∀ cfg s, 1 ≤ cfg.setting.max_connections →
      Reachable (step cfg) (ebSrvNew cfg) s →
      ((live s).length : Int) ≤ cfg.setting.max_connections := by
  intro hall
  obtain ⟨s, hreach, hlive⟩ :=
    reachable_of_endsIn (step Small.narrow) (ebSrvNew Small.narrow)
      (Small.boot ++ Small.client 7 ++ Small.client 9)
      (fun s => decide (live s = [7, 9])) (by decide +kernel)
  have hle := hall Small.narrow s (by decide) hreach
  rw [of_decide_eq_true hlive] at hle
  revert hle
  decide

end Result

end Ebot
