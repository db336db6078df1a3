import Ebot.Registry

/-!
# The lifetime of events

An event lives as long as its slab is handed out.  The tables never hold an
event whose slab was put back, as long as removals are granted.  The ready
queues do, as soon as the close path of the read callback removes an event that
the same batch of reports has queued: `ebot_del_event` does not take the event
out of `event_readies`.
-/

namespace Ebot

open Function EdgeSource EventState Transition

/-- The pool of the server, of which only slabs of its memory are handed out. -/
structure Pooled (cfg : Cfg) (E : EventState) : Prop where
  linked : E.pool.Linked
  num : E.pool.slab_num = cfg.psz
  inside : ∀ p, E.used p = true → p < cfg.psz

/-- Every event in a ready queue is registered with the queue's base. -/
def ReadyRegistered (E : EventState) : Prop :=
  ∀ t, ∀ p ∈ E.readies t, ∃ d fd, E.slot t d fd = some p

/-- Every event in a table or a ready queue lies in a slab of the pool that is
handed out. -/
structure NoDangling (cfg : Cfg) (E : EventState) : Prop where
  waits : ∀ t d fd p, E.slot t d fd = some p → p < cfg.psz ∧ E.used p = true
  readies : ∀ t, ∀ p ∈ E.readies t, p < cfg.psz ∧ E.used p = true

/-- The close path removes only events that are not queued, and the kernel does
not refuse. -/
def ClosesUnqueued (s : Server) (a : Action) : Prop :=
  RemovalsGranted s a ∧
    match a with
    | .run t _ =>
        match s.pc t with
        | .closing d i fd =>
            ∀ p ∈ s.events.slot (.reactor i) d fd, p ∉ s.events.readies (.reactor i)
        | _ => True
    | _ => True

instance (s : Server) : DecidablePred (ClosesUnqueued s)
  | .run t _ => by
      dsimp only [ClosesUnqueued]
      generalize s.pc t = pc
      rcases pc <;> infer_instance
  | .arrive | .wait _ _ | .work _ _ => inferInstanceAs (Decidable (RemovalsGranted s _ ∧ True))

/-- No callback of the thread is running. -/
def Pc.between : Pc → Bool
  | .boot | .idle | .dispatch => true
  | .accept | .handOff _ | .announce _ | .count | .pipeRead _ | .opening _ _ _
  | .undoing _ _ _ _ | .recv _ _ | .closing _ _ _ | .pushing _ _ _ | .notify _ => false

section Pool

variable {cfg : Cfg} {s s' : Server} {a : Action} {E E' : EventState}
variable {t : Tid} {d : Dir} {e : SrvEvent} {p : Nat} {ret : Int}

theorem pooled_ebSrvNew : Pooled cfg (ebSrvNew cfg).events := by
  have hpsz : 1 ≤ cfg.psz := orFour_pos cfg.setting.memory_pool_size
  obtain ⟨hlinked, hnum, hused⟩ := mpoolNew_spec sizeofEvent hpsz
  refine ⟨hlinked, hnum, fun p hp => ?_⟩
  simp only [EventState.used, ebSrvNew, hused] at hp
  cases hp

theorem Pooled.opened
    (h : Pooled cfg E)
    (hop : Opened E t d e p ret E') :
    Pooled cfg E' := by
  refine ⟨hop.pool.linked h.linked, hop.pool.num.trans h.num, fun q hq => ?_⟩
  rw [hop.used] at hq
  split at hq
  · rename_i he
    have hinside := hop.inside h.linked
    rw [h.num] at hinside
    exact he ▸ hinside
  · exact h.inside q hq

/-- Putting a slab back. -/
theorem Pooled.freed
    (h : Pooled cfg E)
    (hpool : KeepsPool E E')
    (hused : ∀ q, E'.used q = if q = p then false else E.used q) :
    Pooled cfg E' := by
  refine ⟨hpool.linked h.linked, hpool.num.trans h.num, fun q hq => ?_⟩
  rw [hused] at hq
  split at hq
  · cases hq
  · exact h.inside q hq

theorem Pooled.same
    (h : Pooled cfg E)
    (hpool : E'.pool = E.pool) :
    Pooled cfg E' := by
  refine ⟨hpool ▸ h.linked, hpool ▸ h.num, fun q hq => h.inside q ?_⟩
  simpa only [EventState.used, hpool] using hq

/-- One move. -/
theorem Pooled.move
    (h : Pooled cfg s.events)
    (hmove : Move cfg s a s') :
    Pooled cfg s'.events := by
  cases hmove with
  | booted _ _ hop => exact h.opened hop
  | waited _ _ _ hcol => exact h.same hcol.pool
  | ignored _ _ htk => exact h.same htk.pool
  | started _ _ htk => exact h.same htk.pool
  | writable _ _ htk => exact h.same htk.pool
  | opened _ _ hop => exact h.opened hop
  | openFailed _ _ hop => exact h.opened hop
  | undone _ _ hput => exact h.freed hput.pool hput.used
  | closed _ _ _ hcl => exact h.freed hcl.pool hcl.used
  | _ => exact h

/-- In every run the pool hands out only its own slabs. -/
theorem pooled_of_reach
    {good : Server → Action → Prop}
    (hreach : Reach (step cfg) good (ebSrvNew cfg) s) :
    Pooled cfg s.events :=
  hreach.invariant (I := fun s => Pooled cfg s.events) pooled_ebSrvNew
    fun _ _ _ h _ hstep => h.move (step_move hstep)

end Pool

section Ready

variable {cfg : Cfg} {s s' : Server} {a : Action} {E E' : EventState}
variable {t : Tid} {d : Dir} {e : SrvEvent} {p fd : Nat} {ret : Int}

/-- A slot that is taken stays taken when an event is opened. -/
theorem EventState.Opened.slot_of_some
    {t' : Tid} {d' : Dir} {fd' q : Nat}
    (hop : Opened E t d e p ret E')
    (hslot : E.slot t' d' fd' = some q) :
    E'.slot t' d' fd' = some q := by
  rw [hop.slot, hslot]
  simp

theorem ReadyRegistered.opened
    (h : ReadyRegistered E)
    (hop : Opened E t d e p ret E') :
    ReadyRegistered E' := by
  intro t' q hq
  rw [hop.readies] at hq
  obtain ⟨d', fd', hslot⟩ := h t' q hq
  exact ⟨d', fd', hop.slot_of_some hslot⟩

theorem ReadyRegistered.putBack
    (h : ReadyRegistered E)
    (hput : PutBack E p E') :
    ReadyRegistered E' := by
  intro t' q hq
  simp only [EventState.readies, hput.base] at hq
  simpa only [EventState.slot, hput.base] using h t' q hq

/-- The removed event was not queued. -/
theorem ReadyRegistered.closed
    (h : ReadyRegistered E)
    (htables : Tables E)
    (hslot : E.slot t d fd = some p)
    (hout : p ∉ E.readies t)
    (hcl : Closed E t p true E') :
    ReadyRegistered E' := by
  intro t' q hq
  rw [hcl.readies] at hq
  obtain ⟨d', fd', hold⟩ := h t' q hq
  refine ⟨d', fd', ?_⟩
  by_cases ht : t' = t
  · subst ht
    have hfor := htables.isFor _ _ _ _ hslot
    have hfd := htables.fd _ _ _ _ hslot
    rw [hcl.slot d hfor, if_neg]
    · exact hold
    · rintro ⟨-, rfl, rfl⟩
      rw [hfd, hslot] at hold
      cases hold
      exact hout hq
  · rw [hcl.other t' ht]
    exact hold

theorem ReadyRegistered.collected
    {reports : List Report}
    (h : ReadyRegistered E)
    (hcol : Collected E t reports E') :
    ReadyRegistered E' := by
  obtain ⟨new, -, hready, hnew, -⟩ := hcol.queue
  intro t' q hq
  simp only [hcol.slot]
  by_cases ht : t' = t
  · subst ht
    rw [hready, List.mem_append] at hq
    rcases hq with hq | hq
    · exact h t' q hq
    · exact (hnew q hq).2
  · rw [hcol.other t' ht] at hq
    exact h t' q hq

theorem ReadyRegistered.taken
    (h : ReadyRegistered E)
    (htk : Taken E t p E') :
    ReadyRegistered E' := by
  intro t' q hq
  simp only [htk.slot]
  by_cases ht : t' = t
  · subst ht
    refine h t' q ?_
    rw [htk.queue]
    exact List.mem_cons_of_mem _ hq
  · rw [htk.other t' ht] at hq
    exact h t' q hq

/-- One move that closes only what is not queued. -/
theorem ReadyRegistered.move
    (h : ReadyRegistered s.events)
    (horderly : Orderly cfg s)
    (hgood : ClosesUnqueued s a)
    (hmove : Move cfg s a s') :
    ReadyRegistered s'.events := by
  cases hmove with
  | booted _ _ hop => exact h.opened hop
  | waited _ _ _ hcol => exact h.collected hcol
  | ignored _ _ htk => exact h.taken htk
  | started _ _ htk => exact h.taken htk
  | writable _ _ htk => exact h.taken htk
  | opened _ _ hop => exact h.opened hop
  | openFailed _ _ hop => exact h.opened hop
  | undone _ _ hput => exact h.putBack hput
  | closed _ hpc hslot hcl hgrant =>
      obtain ⟨hctl, hout⟩ := hgood
      simp only [hpc] at hout
      obtain rfl := horderly.tables.granted hpc hslot hctl hgrant
      exact h.closed horderly.tables hslot (hout _ hslot) hcl
  | _ => exact h

/-- In every run that closes only what is not queued. -/
theorem readyRegistered_of_reach
    (hreach : Reach (step cfg) ClosesUnqueued (ebSrvNew cfg) s) :
    ReadyRegistered s.events := by
  refine hreach.invariant_of (J := Orderly cfg) (I := fun s => ReadyRegistered s.events)
    (fun s hr => orderly_of_reach (fun _ _ h => h.1) hr) ?_ ?_
  · intro t p hp
    cases t <;> cases hp
  · intro s a s' horderly _ h hgood hstep
    exact h.move horderly hgood (step_move hstep)

end Ready

/-- **No dangling event** in any run whose close paths remove only events that
are not queued, with the kernel's consent. -/
theorem no_dangling_event
    {cfg : Cfg} {s : Server}
    (hreach : Reach (step cfg) ClosesUnqueued (ebSrvNew cfg) s) :
    NoDangling cfg s.events := by
  have hpool := pooled_of_reach hreach
  have horderly := orderly_of_reach (fun _ _ h => h.1) hreach
  have hready := readyRegistered_of_reach hreach
  constructor
  · intro t d fd p hslot
    have hused := horderly.tables.used t d fd p hslot
    exact ⟨hpool.inside p hused, hused⟩
  · intro t p hp
    obtain ⟨d, fd, hslot⟩ := hready t p hp
    have hused := horderly.tables.used t d fd p hslot
    exact ⟨hpool.inside p hused, hused⟩

/-- A client is admitted, sends a byte and closes: the tables then hold the
events of the two threads. -/
theorem no_dangling_event_one_client :
    ∃ s, Reach (step Small.cfg) ClosesUnqueued Small.start s ∧
      .received 7 (-2) (.blank 7) ∈ s.log ∧
      (s.events.slot (.reactor 0) .read 4).isSome ∧ NoDangling Small.cfg s.events := by
  obtain ⟨s, hreach, hcheck⟩ := reach_of_endsIn (step Small.cfg)
    ClosesUnqueued Small.start .disabled
    (Small.boot ++ Small.client 7 ++ Small.chunk 7 ++ Small.peerClose 7)
    (fun s =>
      decide (.received 7 (-2) (.blank 7) ∈ s.log) &&
        (s.events.slot (.reactor 0) .read 4).isSome)
    (by decide +kernel)
  simp only [Bool.and_eq_true, decide_eq_true_eq] at hcheck
  exact ⟨s, hreach, hcheck.1, hcheck.2, no_dangling_event hreach⟩

/-- The peer closes while the connection is also reported as writable: between
the two callbacks of the batch the write event is queued, and its slab is back
in the pool. -/
theorem not_no_dangling_event :
    ¬ ∀ s, Reachable (step Small.cfg) Small.start s →
      (∀ t, Small.cfg.Runs t → (s.pc t).between = true) →
      NoDangling Small.cfg s.events := by
  intro hall
  obtain ⟨s, hreach, hcheck⟩ := reachable_of_endsIn (step Small.cfg) Small.start
    (Small.boot ++ Small.client 7 ++
      [.wait (.reactor 0) [Small.epollinout 7], Small.reactor, Small.recv .shutdown,
        Small.reactor, Small.reactor, Small.reactor, Small.reactor])
    (fun s =>
      decide (∀ t, Small.cfg.Runs t → (s.pc t).between = true) &&
        (s.events.readies (.reactor 0)).any fun p => !s.events.used p)
    (by decide +kernel)
  simp only [Bool.and_eq_true, decide_eq_true_eq, List.any_eq_true,
    Bool.not_eq_true'] at hcheck
  obtain ⟨hbetween, p, hmem, hfree⟩ := hcheck
  obtain ⟨-, hused⟩ := (hall s hreach hbetween).readies _ p hmem
  rw [hfree] at hused
  cases hused

end Ebot
