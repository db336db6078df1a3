import Mathlib.Combinatorics.Enumerative.DoubleCounting
import Ebot.Faults

/-!
# When the event pool runs out

Where the slabs of the pool are while the threads run.  In every run in which the
kernel grants the removals, a slab is handed out exactly when its event is in one slot
of one wait table, or one thread is about to put it back: none is lost, and none is in
two places.  Every place belongs to a thread or to an accepted connection, and the
accept path bounds the connections, so a pool of a certain size never runs out.
-/

namespace Ebot

open Function EdgeSource EventState Transition

/-- Where a slab that is handed out can be. -/
inductive Place where
  /-- Its event is registered. -/
  | slot (t : Tid) (d : Dir) (fd : Nat)
  /-- The thread is about to put it back. -/
  | hand (t : Tid)
deriving DecidableEq

/-- The slab is in this place. -/
def Place.Holds (s : Server) : Place → Nat → Prop
  | .slot t d fd, p => s.events.slot t d fd = some p
  | .hand t, p => (s.pc t).undoes = some p

/-- What is handed out is somewhere. -/
def Accounted (s : Server) : Prop :=
  ∀ p, s.events.used p = true → ∃ x : Place, x.Holds s p

/-- A thread that has not started has registered nothing. -/
def Unbooted (s : Server) : Prop :=
  ∀ t, s.pc t = .boot → ∀ d fd, s.events.slot t d fd = none

/-- The slots the callback of a connection fills are free until it does. -/
structure Vacant (s : Server) : Prop where
  opening : ∀ t d i fd, s.pc t = .opening d i fd → s.events.slot (.reactor i) d fd = none
  undoing : ∀ t d i fd p, s.pc t = .undoing d i fd p → s.events.slot (.reactor i) d fd = none

section Slots

variable {cfg : Cfg} {s s' : Server} {a : Action} {t : Tid} {d : Dir} {i p : Nat} {fd : Fd}

/-- A thread that starts has left its first place. -/
theorem Move.thread_ne_of_boot
    (h : Move cfg s a s')
    (hpc : s'.pc t = .boot) :
    a.thread ≠ some t := by
  intro ha
  cases h with
  | arrived => cases ha
  | ignored _ hpc' =>
      cases ha
      exact absurd (hpc.symm.trans hpc') nofun
  | writable _ hpc' =>
      cases ha
      exact absurd (hpc.symm.trans hpc') nofun
  | @started _ _ _ _ cb pc _ _ _ _ hstart =>
      cases ha
      rw [Server.goto_pc_self] at hpc
      have hwaits := Pc.waits_start hstart
      rw [hpc] at hwaits
      cases hwaits
  | @opened _ _ d =>
      cases ha
      rw [Server.goto_pc_self] at hpc
      cases d <;> cases hpc
  | @undone _ _ d =>
      cases ha
      rw [Server.goto_pc_self] at hpc
      cases d <;> cases hpc
  | @received _ env i fd =>
      cases ha
      rw [Server.goto_pc_self] at hpc
      have hwaits : (Pc.received i fd env.recv).waits = false := Pc.waits_received
      rw [hpc] at hwaits
      cases hwaits
  | @closedNone _ _ d =>
      cases ha
      rw [Server.goto_pc_self] at hpc
      cases d <;> cases hpc
  | @closed _ _ d =>
      cases ha
      rw [Server.goto_pc_self] at hpc
      cases d <;> cases hpc
  | woke => cases ha
  | handled => cases ha
  | emptied => cases ha
  | _ =>
      cases ha
      rw [Server.goto_pc_self] at hpc
      cases hpc

/-- A thread fills slots of its own base only. -/
theorem Move.slot_none_other
    (h : Move cfg s a s')
    (horderly : Orderly cfg s)
    (ha : a.thread ≠ some t)
    {fd : Nat}
    (hnone : s.events.slot t d fd = none) :
    s'.events.slot t d fd = none := by
  have hne : ∀ {t'}, some t' ≠ some t → t ≠ t' := fun h he => h (he ▸ rfl)
  have hopened : ∀ {t' d' e p ret E}, Opened s.events t' d' e p ret E → t ≠ t' →
      E.slot t d fd = none := by
    intro t' d' e p ret E hop ht
    rw [hop.slot, if_neg fun hc => ht hc.2.1]
    exact hnone
  have hacts : ∀ {t' pc}, s.pc t' = pc → pc.ActsFor cfg t' := fun hpc => hpc ▸ horderly.acts _
  cases h with
  | booted _ _ hop => exact hopened hop (hne ha)
  | waited _ _ _ hcol => exact (hcol.slot _ _ _).trans hnone
  | ignored _ _ htk => exact (htk.slot _ _ _).trans hnone
  | started _ _ htk => exact (htk.slot _ _ _).trans hnone
  | writable _ _ htk => exact (htk.slot _ _ _).trans hnone
  | opened _ hpc hop =>
      have ht := hacts hpc
      exact hopened hop (ht ▸ hne ha)
  | openFailed _ hpc hop =>
      have ht := hacts hpc
      exact hopened hop (ht ▸ hne ha)
  | undone _ _ hput =>
      rw [Server.goto_events]
      simpa only [EventState.slot, hput.base] using hnone
  | closed _ _ _ hcl =>
      rw [Server.goto_events]
      cases hslot : EventState.slot _ t d fd with
      | none => rfl
      | some q =>
          rw [hcl.subset _ _ _ _ hslot] at hnone
          cases hnone
  | _ => exact hnone

theorem unbooted_of_reach
    (hreach : Reach (step cfg) RemovalsGranted (ebSrvNew cfg) s) :
    Unbooted s := by
  refine hreach.invariant_of (J := Orderly cfg)
    (fun s hr => orderly_of_reach (fun _ _ h => h) hr) ?_ ?_
  · intro t _ d fd
    cases t <;> cases d <;> rfl
  · intro s a s' horderly _ h _ hstep t hpc d fd
    have hmove := step_move hstep
    have ha := hmove.thread_ne_of_boot hpc
    exact hmove.slot_none_other horderly ha (h t ((hmove.pc_other ha).symm.trans hpc) d fd)

/-- A connection comes to the registration of each of its events once. -/
theorem opening_vacant
    (hreach : Reach (step cfg) RemovalsGranted (ebSrvNew cfg) s)
    (hpc : s.pc t = .opening d i fd) :
    s.events.slot (.reactor i) d fd = none := by
  have hregular := regular_of_reach hreach
  have hdesc := hregular.desc
  obtain ⟨hacc, rfl⟩ := hdesc.at_index hpc rfl rfl
  obtain rfl : t = .reactor (cfg.reactorOf fd) := by
    have hacts := hregular.orderly.acts t
    rwa [hpc] at hacts
  have hfd := (hdesc.accepted fd hacc).1
  cases d with
  | read =>
      have hplace : OnePlace cfg fd s := onePlace_of_reach hfd (fun _ _ h => h) hreach
      exact (hplace.past hdesc hacc (by rw [hpc]; rfl)).2
  | write =>
      have hwrite := writeOnce_of_reach hfd hreach
      by_contra hslot
      exact (hwrite.registered hslot).2 (Pc.awaits_of_opening hpc)

/-- A thread comes to a put from a failed add, which has filled no slot. -/
theorem Move.undoing_from
    (h : Move cfg s a s')
    (ha : a.thread = some t)
    (hpc : s'.pc t = .undoing d i fd p) :
    s.pc t = .opening d i fd ∧
      ∀ t d fd, s'.events.slot t d fd = s.events.slot t d fd := by
  cases h with
  | arrived => cases ha
  | ignored _ hpc' =>
      cases ha
      exact absurd (hpc.symm.trans hpc') nofun
  | writable _ hpc' =>
      cases ha
      exact absurd (hpc.symm.trans hpc') nofun
  | @started _ _ p events cb pc _ _ _ _ hstart =>
      cases ha
      rw [Server.goto_pc_self] at hpc
      subst hpc
      generalize (events.ev p).arg = arg at hstart
      cases cb <;> cases arg <;> cases hstart
  | openFailed _ hpc' hop =>
      cases ha
      rw [Server.goto_pc_self] at hpc
      cases hpc
      refine ⟨hpc', fun t d fd => ?_⟩
      rw [Server.goto_events, hop.slot, if_neg fun hc => absurd hc.1 (by decide)]
  | @opened _ _ d =>
      cases ha
      rw [Server.goto_pc_self] at hpc
      cases d <;> cases hpc
  | @undone _ _ d =>
      cases ha
      rw [Server.goto_pc_self] at hpc
      cases d <;> cases hpc
  | @received _ env i fd =>
      cases ha
      rw [Server.goto_pc_self] at hpc
      rcases Pc.received_cases i fd env.recv with ⟨-, he⟩ | ⟨-, he⟩ | ⟨-, -, he⟩ <;>
        rw [he] at hpc <;> cases hpc
  | @closedNone _ _ d =>
      cases ha
      rw [Server.goto_pc_self] at hpc
      cases d <;> cases hpc
  | @closed _ _ d =>
      cases ha
      rw [Server.goto_pc_self] at hpc
      cases d <;> cases hpc
  | woke => cases ha
  | handled => cases ha
  | emptied => cases ha
  | _ =>
      cases ha
      rw [Server.goto_pc_self] at hpc
      cases hpc

theorem vacant_of_reach
    (hreach : Reach (step cfg) RemovalsGranted (ebSrvNew cfg) s) :
    Vacant s := by
  refine ⟨fun t d i fd hpc => opening_vacant hreach hpc, ?_⟩
  refine hreach.invariant_of
    (J := fun s => Orderly cfg s ∧
      ∀ t d i fd, s.pc t = .opening d i fd → s.events.slot (.reactor i) d fd = none)
    (I := fun s => ∀ t d i fd p, s.pc t = .undoing d i fd p →
      s.events.slot (.reactor i) d fd = none)
    (fun s hr => ⟨orderly_of_reach (fun _ _ h => h) hr,
      fun t d i fd hpc => opening_vacant hr hpc⟩) nofun ?_
  rintro s a s' ⟨horderly, hopening⟩ - h - hstep t d i fd p hpc
  have hmove := step_move hstep
  by_cases ha : a.thread = some t
  · obtain ⟨hbefore, hslot⟩ := hmove.undoing_from ha hpc
    rw [hslot]
    exact hopening t d i fd hbefore
  · have hbefore := (hmove.pc_other ha).symm.trans hpc
    obtain rfl : t = .reactor i := by
      have hacts := horderly.acts t
      rwa [hbefore] at hacts
    exact hmove.slot_none_other horderly ha (h _ d i fd p hbefore)

end Slots

/-! ## Every slab is in its place -/

section Accounts

variable {cfg : Cfg} {s s' : Server} {a : Action} {t : Tid} {d : Dir} {p : Nat}

/-- A thread that holds nothing goes on, and what was registered stays. -/
theorem Place.holds_goto
    {s₁ : Server} {pc pc₀ : Pc} {x : Place}
    (hpc : s.pc t = pc₀)
    (hundoes : pc₀.undoes = none)
    (hpcs : s₁.pc = s.pc)
    (hslot : ∀ t d fd p, s.events.slot t d fd = some p → s₁.events.slot t d fd = some p)
    (h : x.Holds s p) :
    x.Holds (s₁.goto t pc) p := by
  cases x with
  | slot t' d' fd' => exact hslot t' d' fd' p h
  | hand t' =>
      have ht : t' ≠ t := by
        rintro rfl
        have hhand : (s.pc t').undoes = some p := h
        rw [hpc, hundoes] at hhand
        cases hhand
      change ((s₁.goto t pc).pc t').undoes = some p
      rw [Server.goto_pc, update_of_ne ht, hpcs]
      exact h

/-- The new event of a thread fills the slot it is added to. -/
theorem EventState.Opened.fills
    {E E' : EventState} {e : SrvEvent}
    (hop : Opened E t d e p 0 E')
    (hfree : E.slot t d e.fd = none) :
    E'.slot t d e.fd = some p := by
  rw [hop.slot, if_pos ⟨rfl, rfl, rfl, rfl, hfree⟩]

/-- One move. -/
theorem Accounted.move
    (h : Accounted s)
    (horderly : Orderly cfg s)
    (hunbooted : Unbooted s)
    (hvacant : Vacant s)
    (hmove : Move cfg s a s') :
    Accounted s' := by
  have hkeep : ∀ t d fd p, s.events.slot t d fd = some p → s.events.slot t d fd = some p :=
    fun _ _ _ _ => id
  -- a step that gets and puts no slab
  have hsame : ∀ {t pc pc₀} {s₁ : Server}, s.pc t = pc₀ → pc₀.undoes = none → s₁.pc = s.pc →
      (∀ p, s₁.events.used p = s.events.used p) →
      (∀ t d fd p, s.events.slot t d fd = some p → s₁.events.slot t d fd = some p) →
      Accounted (s₁.goto t pc) := by
    intro t pc pc₀ s₁ hpc hundoes hpcs hused hslot p hp
    rw [Server.goto_events, hused] at hp
    obtain ⟨x, hx⟩ := h p hp
    exact ⟨x, Place.holds_goto hpc hundoes hpcs hslot hx⟩
  have hplain : ∀ {t pc pc₀} {s₁ : Server}, s.pc t = pc₀ → pc₀.undoes = none → s₁.pc = s.pc →
      s₁.events = s.events → Accounted (s₁.goto t pc) := by
    intro t pc pc₀ s₁ hpc hundoes hpcs hevents
    exact hsame hpc hundoes hpcs (fun _ => by rw [hevents]) (by rw [hevents]; exact hkeep)
  have htaken : ∀ {t p E}, Taken s.events t p E →
      (∀ q, E.used q = s.events.used q) ∧
        ∀ t d fd q, s.events.slot t d fd = some q → E.slot t d fd = some q := by
    intro t p E htk
    refine ⟨fun q => by rw [EventState.used, htk.pool, EventState.used], fun t' d' fd' q hq => ?_⟩
    rw [htk.slot]
    exact hq
  cases hmove with
  | arrived => exact h
  | @booted t _ p events _ hpc hop =>
      intro q hq
      rw [Server.goto_events, hop.used] at hq
      by_cases hqp : q = p
      · subst hqp
        exact ⟨.slot t .read (bootEvent cfg t).fd, hop.fills (hunbooted t hpc _ _)⟩
      · rw [if_neg hqp] at hq
        obtain ⟨x, hx⟩ := h q hq
        exact ⟨x, Place.holds_goto hpc rfl rfl (fun _ _ _ _ => hop.slot_of_some) hx⟩
  | waited _ hpc _ hcol =>
      refine hsame hpc rfl rfl (fun q => ?_) fun t d fd q hq => ?_
      · rw [EventState.used, hcol.pool, EventState.used]
      · exact (hcol.slot t d fd).trans hq
  | ignored _ _ htk =>
      intro q hq
      obtain ⟨hused, hslot⟩ := htaken htk
      obtain ⟨x, hx⟩ := h q ((hused q).symm.trans hq)
      refine ⟨x, ?_⟩
      cases x with
      | slot t' d' fd' => exact hslot t' d' fd' q hx
      | hand t' => exact hx
  | writable _ _ htk =>
      intro q hq
      obtain ⟨hused, hslot⟩ := htaken htk
      obtain ⟨x, hx⟩ := h q ((hused q).symm.trans hq)
      refine ⟨x, ?_⟩
      cases x with
      | slot t' d' fd' => exact hslot t' d' fd' q hx
      | hand t' => exact hx
  | started _ hpc htk =>
      obtain ⟨hused, hslot⟩ := htaken htk
      exact hsame hpc rfl rfl hused hslot
  | @opened t _ d i fd p events _ hpc hop =>
      intro q hq
      rw [Server.goto_events, hop.used] at hq
      by_cases hqp : q = p
      · subst hqp
        exact ⟨.slot (.reactor i) d fd, hop.fills (hvacant.opening t d i fd hpc)⟩
      · rw [if_neg hqp] at hq
        obtain ⟨x, hx⟩ := h q hq
        exact ⟨x, Place.holds_goto hpc rfl rfl (fun _ _ _ _ => hop.slot_of_some) hx⟩
  | @openFailed t _ d i fd p events _ hpc hop =>
      intro q hq
      rw [Server.goto_events, hop.used] at hq
      by_cases hqp : q = p
      · subst hqp
        refine ⟨.hand t, ?_⟩
        change (Server.pc _ t).undoes = some q
        rw [Server.goto_pc_self]
        rfl
      · rw [if_neg hqp] at hq
        obtain ⟨x, hx⟩ := h q hq
        exact ⟨x, Place.holds_goto hpc rfl rfl (fun _ _ _ _ => hop.slot_of_some) hx⟩
  | @undone t _ d i fd p events _ hpc hput =>
      intro q hq
      rw [Server.goto_events, hput.used] at hq
      by_cases hqp : q = p
      · rw [if_pos hqp] at hq
        cases hq
      · rw [if_neg hqp] at hq
        obtain ⟨x, hx⟩ := h q hq
        refine ⟨x, ?_⟩
        cases x with
        | slot t' d' fd' =>
            change EventState.slot _ t' d' fd' = some q
            simp only [Server.goto_events, EventState.slot, hput.base]
            exact hx
        | hand t' =>
            have ht : t' ≠ t := by
              rintro rfl
              have hhand : (s.pc t').undoes = some q := hx
              rw [hpc] at hhand
              exact hqp (Option.some.inj hhand).symm
            change (Server.pc _ t').undoes = some q
            rw [Server.goto_pc, update_of_ne ht]
            exact hx
  | @closed t _ d i fd p granted events _ hpc hslot hcl =>
      intro q hq
      rw [Server.goto_events, hcl.used] at hq
      by_cases hqp : q = p
      · rw [if_pos hqp] at hq
        cases hq
      · rw [if_neg hqp] at hq
        obtain ⟨x, hx⟩ := h q hq
        refine ⟨x, ?_⟩
        cases x with
        | slot t' d' fd' =>
            change EventState.slot _ t' d' fd' = some q
            rw [Server.goto_events]
            by_cases ht : t' = .reactor i
            · subst ht
              rw [hcl.slot d (horderly.tables.isFor _ _ _ _ hslot), if_neg ?_]
              · exact hx
              · -- the slot that is emptied held the removed event
                rintro ⟨-, rfl, hfd⟩
                rw [horderly.tables.fd _ _ _ _ hslot] at hfd
                have hx' : s.events.slot (.reactor i) d' fd' = some q := hx
                rw [hfd, hslot] at hx'
                exact hqp (Option.some.inj hx').symm
            · rw [hcl.other t' ht]
              exact hx
        | hand t' =>
            have hhand : (s.pc t').undoes = some q := hx
            have ht : t' ≠ t := by
              rintro rfl
              rw [hpc] at hhand
              cases hhand
            change (Server.pc _ t').undoes = some q
            rw [Server.goto_pc, update_of_ne ht]
            exact hx
  | drained _ hpc => exact hplain hpc rfl rfl rfl
  | acceptFailed _ hpc => exact hplain hpc rfl rfl rfl
  | rejected _ hpc => exact hplain hpc rfl rfl rfl
  | accepted _ hpc => exact hplain hpc rfl rfl rfl
  | handedOff _ hpc => exact hplain hpc rfl rfl rfl
  | handOffFailed _ hpc => exact hplain hpc rfl rfl rfl
  | announced _ hpc => exact hplain hpc rfl rfl rfl
  | counted _ hpc => exact hplain hpc rfl rfl rfl
  | pipeEmpty _ hpc => exact hplain hpc rfl rfl rfl
  | pipeTaken _ hpc => exact hplain hpc rfl rfl rfl
  | exhausted _ hpc => exact hplain hpc rfl rfl rfl
  | received _ hpc => exact hplain hpc rfl rfl rfl
  | closedNone _ hpc => exact hplain hpc rfl rfl rfl
  | refused _ hpc => exact hplain hpc rfl rfl rfl
  | pushed _ hpc => exact hplain hpc rfl rfl rfl
  | notified _ hpc => exact hplain hpc rfl rfl rfl
  | woke => exact h
  | handled => exact h
  | emptied => exact h

theorem accounted_of_reach
    (hreach : Reach (step cfg) RemovalsGranted (ebSrvNew cfg) s) :
    Accounted s := by
  refine hreach.invariant_of (J := fun s => Orderly cfg s ∧ Unbooted s ∧ Vacant s)
    (fun s hr => ⟨orderly_of_reach (fun _ _ h => h) hr, unbooted_of_reach hr,
      vacant_of_reach hr⟩) ?_ ?_
  · intro p hp
    have hfree : (ebSrvNew cfg).events.used p = false :=
      (mpoolNew_spec sizeofEvent (orFour_pos _)).2.2 p
    rw [hfree] at hp
    cases hp
  · rintro s a s' ⟨horderly, hunbooted, hvacant⟩ - h - hstep
    exact h.move horderly hunbooted hvacant (step_move hstep)

end Accounts

/-- The slots that may be filled: those of the threads that exist, and two for each
connection. -/
def slotsFor (cfg : Cfg) (log : List Note) : List (Tid × Dir × Nat) :=
  (.master, .read, (cfg.sfd : Nat)) ::
    ((List.range cfg.rsz).map fun i => (.reactor i, .read, (cfg.pipeFd i : Nat))) ++
    (acceptedOf log).flatMap fun fd : Fd =>
      [(.reactor (cfg.reactorOf fd), .read, (fd : Nat)),
        (.reactor (cfg.reactorOf fd), .write, (fd : Nat))]

/-- The slab is in the slot, or was to be put into it. -/
def Claims (s : Server) (k : Tid × Dir × Nat) (p : Nat) : Prop :=
  s.events.slot k.1 k.2.1 k.2.2 = some p ∨
    ∃ i fd, k = (.reactor i, k.2.1, (fd : Fd).val) ∧ s.pc k.1 = .undoing k.2.1 i fd p

section Bound

variable {cfg : Cfg} {s : Server} {t : Tid} {d : Dir} {i p q : Nat} {fd : Fd}

theorem slotsFor_length
    (cfg : Cfg) (log : List Note) :
    (slotsFor cfg log).length = 1 + cfg.rsz + 2 * (acceptedOf log).length := by
  unfold slotsFor
  generalize acceptedOf log = fds
  induction fds with
  | nil =>
      simp
      omega
  | cons fd fds ih =>
      rw [List.flatMap_cons, List.length_cons]
      simp only [List.length_append, List.length_cons, List.length_nil] at ih ⊢
      omega

/-- What is registered is registered in one of them. -/
theorem slot_mem_slotsFor
    {fd : Nat}
    (hreach : Reach (step cfg) RemovalsGranted (ebSrvNew cfg) s)
    (hslot : s.events.slot t d fd = some p) :
    (t, d, fd) ∈ slotsFor cfg s.log := by
  have hregular := regular_of_reach hreach
  have htables := hregular.orderly.tables
  have hd := htables.isFor t d fd p hslot
  have hfd := htables.fd t d fd p hslot
  have htid := htables.tid t d fd p hslot
  have hfilled := filled_of_reach hreach p (htables.used t d fd p hslot)
  unfold slotsFor
  rcases hregular.desc.ev p with hnone | ⟨t', hboot⟩ | ⟨d', fd', hacc, hclient⟩
  · exact absurd hnone hfilled
  · obtain rfl : t' = t := by
      rw [hboot.arg, bootEvent_tid] at htid
      exact htid
    have hread : d = .read := Dir.kide_injective (hd.symm.trans (hboot.kide.trans bootEvent_isFor))
    rw [hboot.fd, bootEvent_fd] at hfd
    subst hread
    subst hfd
    refine List.mem_append_left _ ?_
    cases t' with
    | master => exact List.mem_cons_self
    | reactor i =>
        have hrun : cfg.Runs (.reactor i) := by
          by_contra hnot
          have hempty := unbooted_of_reach hreach _ (pc_boot_of_not_runs hreach hnot)
            .read (cfg.sourceFd (.reactor i))
          rw [hslot] at hempty
          cases hempty
        exact List.mem_cons_of_mem _ (List.mem_map.mpr ⟨i, List.mem_range.mpr hrun, rfl⟩)
  · obtain rfl : d' = d := Dir.kide_injective (hclient.kide.symm.trans hd)
    rw [hclient.arg] at htid
    rw [hclient.fd] at hfd
    subst hfd
    subst htid
    refine List.mem_append_right _ (List.mem_flatMap.mpr ⟨fd', mem_acceptedOf.mpr hacc, ?_⟩)
    cases d'
    · exact List.mem_cons_self
    · exact List.mem_cons_of_mem _ List.mem_cons_self

/-- What is handed out is in one of them, or was to be put into one. -/
theorem exists_claim
    (hreach : Reach (step cfg) RemovalsGranted (ebSrvNew cfg) s)
    (hused : s.events.used p = true) :
    ∃ k ∈ slotsFor cfg s.log, Claims s k p := by
  obtain ⟨x, hx⟩ := accounted_of_reach hreach p hused
  cases x with
  | slot t d fd => exact ⟨(t, d, fd), slot_mem_slotsFor hreach hx, .inl hx⟩
  | hand t =>
      have hhand : (s.pc t).undoes = some p := hx
      have hregular := regular_of_reach hreach
      cases hpc : s.pc t with
      | undoing d i fd q =>
          rw [hpc] at hhand
          obtain rfl : q = p := Option.some.inj hhand
          obtain ⟨hacc, rfl⟩ := hregular.desc.at_index hpc rfl rfl
          obtain rfl : t = .reactor (cfg.reactorOf fd) := by
            have hacts := hregular.orderly.acts t
            rwa [hpc] at hacts
          refine ⟨(.reactor (cfg.reactorOf fd), d, (fd : Nat)), ?_, .inr ⟨_, fd, rfl, hpc⟩⟩
          refine List.mem_append_right _
            (List.mem_flatMap.mpr ⟨fd, mem_acceptedOf.mpr hacc, ?_⟩)
          cases d
          · exact List.mem_cons_self
          · exact List.mem_cons_of_mem _ List.mem_cons_self
      | _ =>
          rw [hpc] at hhand
          cases hhand

/-- A slot is claimed for one slab. -/
theorem Claims.unique
    {k : Tid × Dir × Nat}
    (hvacant : Vacant s)
    (h : Claims s k p)
    (h' : Claims s k q) :
    p = q := by
  rcases h with hslot | ⟨i, fd, hk, hpc⟩
  · rcases h' with hslot' | ⟨i, fd, hk, hpc⟩
    · exact Option.some.inj (hslot.symm.trans hslot')
    · have hnone := hvacant.undoing _ _ _ _ _ hpc
      rw [hk] at hslot
      rw [hslot] at hnone
      cases hnone
  · rcases h' with hslot' | ⟨i', fd', hk', hpc'⟩
    · have hnone := hvacant.undoing _ _ _ _ _ hpc
      rw [hk] at hslot'
      rw [hslot'] at hnone
      cases hnone
    · cases hpc.symm.trans hpc'
      rfl

/-- When no slab is left, all of them are handed out. -/
theorem used_of_not_slabLeft
    (hpsz : 2 ≤ cfg.psz)
    (hreach : Reach (step cfg) RemovalsGranted (ebSrvNew cfg) s)
    (hleft : ¬ SlabLeft s.events)
    (hp : p < cfg.psz) :
    s.events.used p = true := by
  obtain ⟨-, free, busy, hpool⟩ := poolOrdered_of_reach hpsz hreach
  have hnum := (pooled_of_reach hreach).num
  cases free with
  | nil => exact hpool.marked p (by simpa [hnum, hp] using hpool.slabs p)
  | cons x free =>
      refine absurd ?_ hleft
      have hhead : s.events.pool.head = some x := hpool.orders.head
      have hfree : s.events.used x = false := hpool.unmarked x List.mem_cons_self
      unfold SlabLeft
      rw [hhead, Option.any_some, hfree]
      rfl

/-- A slot that nobody claims leaves a slab when there are enough. -/
theorem slabLeft_of_unclaimed
    {k : Tid × Dir × Nat}
    (hpsz : 1 + cfg.rsz + 2 * (acceptedOf s.log).length ≤ cfg.psz)
    (hreach : Reach (step cfg) RemovalsGranted (ebSrvNew cfg) s)
    (hk : k ∈ slotsFor cfg s.log)
    (hfree : ∀ p, ¬ Claims s k p) :
    SlabLeft s.events := by
  have hrsz : 0 < cfg.rsz := orFour_pos _
  by_contra hleft
  have hused : ∀ p, p < cfg.psz → s.events.used p = true := fun p hp =>
    used_of_not_slabLeft (by omega) hreach hleft hp
  -- each slab claims a slot of its own, and never this one
  have hcard : (Finset.range cfg.psz).card ≤ ((slotsFor cfg s.log).toFinset.erase k).card := by
    refine Finset.card_le_card_of_forall_subsingleton (fun p k => Claims s k p) ?_ ?_
    · intro p hp
      obtain ⟨k', hk', hclaim⟩ := exists_claim hreach (hused p (Finset.mem_range.mp hp))
      refine ⟨k', Finset.mem_erase.mpr ⟨?_, List.mem_toFinset.mpr hk'⟩, hclaim⟩
      rintro rfl
      exact hfree p hclaim
    · intro k' _ p hp q hq
      exact hp.2.unique (vacant_of_reach hreach) hq.2
  have hlen := List.toFinset_card_le (slotsFor cfg s.log)
  rw [slotsFor_length] at hlen
  rw [Finset.card_range, Finset.card_erase_of_mem (List.mem_toFinset.mpr hk)] at hcard
  omega

/-- A thread that asks for a slab has a slot for it that nobody claims. -/
theorem exists_unclaimed
    (hreach : Reach (step cfg) RemovalsGranted (ebSrvNew cfg) s)
    (hrun : cfg.Runs t)
    (hpc : s.pc t = .boot ∨ ∃ d i fd, s.pc t = .opening d i fd) :
    ∃ k ∈ slotsFor cfg s.log, ∀ p, ¬ Claims s k p := by
  have hregular := regular_of_reach hreach
  have hacts : ∀ {t' d i fd q}, s.pc t' = .undoing d i fd q → t' = .reactor i := by
    intro t' d i fd q hundoing
    have hacts := hregular.orderly.acts t'
    rwa [hundoing] at hacts
  rcases hpc with hboot | ⟨d, i, fd, hopening⟩
  · refine ⟨(t, .read, (cfg.sourceFd t : Nat)), ?_, ?_⟩
    · refine List.mem_append_left _ ?_
      cases t with
      | master => exact List.mem_cons_self
      | reactor i =>
          exact List.mem_cons_of_mem _ (List.mem_map.mpr ⟨i, List.mem_range.mpr hrun, rfl⟩)
    · rintro p (hslot | ⟨i, fd, hk, hundoing⟩)
      · rw [unbooted_of_reach hreach t hboot] at hslot
        cases hslot
      · exact absurd (hboot.symm.trans hundoing) nofun
  · obtain ⟨hacc, rfl⟩ := hregular.desc.at_index hopening rfl rfl
    obtain rfl : t = .reactor (cfg.reactorOf fd) := by
      have hacts := hregular.orderly.acts t
      rwa [hopening] at hacts
    refine ⟨(.reactor (cfg.reactorOf fd), d, (fd : Nat)), ?_, ?_⟩
    · refine List.mem_append_right _
        (List.mem_flatMap.mpr ⟨fd, mem_acceptedOf.mpr hacc, ?_⟩)
      cases d
      · exact List.mem_cons_self
      · exact List.mem_cons_of_mem _ List.mem_cons_self
    · rintro p (hslot | ⟨i, fd', -, hundoing⟩)
      · rw [opening_vacant hreach hopening] at hslot
        cases hslot
      · exact absurd (hopening.symm.trans hundoing) nofun

end Bound

/-- **A pool that suffices.**  With a slab for each thread and two for each connection
that the limit admits, one more than `max_connections`, whoever asks for a slab finds
one, in every run with the removals granted. -/
theorem pool_suffices
    {cfg : Cfg} {s : Server} {t : Tid}
    (hlimit : 0 ≤ cfg.setting.max_connections)
    (hpsz : 1 + cfg.rsz + 2 * (cfg.setting.max_connections + 1) ≤ cfg.psz)
    (hreach : Reach (step cfg) RemovalsGranted (ebSrvNew cfg) s)
    (hrun : cfg.Runs t)
    (hpc : s.pc t = .boot ∨ ∃ d i fd, s.pc t = .opening d i fd) :
    SlabLeft s.events := by
  obtain ⟨k, hk, hfree⟩ := exists_unclaimed hreach hrun hpc
  refine slabLeft_of_unclaimed ?_ hreach hk hfree
  have hone := oneOverLimit_of_reach hlimit hreach
  unfold OneOverLimit at hone
  omega

/-- The small server with the slabs that its limit asks for. -/
def Small.ample : Cfg :=
  { Small.cfg with
    setting := ⟨24, 1, 1, 10⟩
    pipe_opened := fun _ _ => Small.cfg.pipe_opened 0 (by decide) }

/-- Its reactor asks for the slab of a connection. -/
theorem pool_suffices_seven :
    ∃ s, Reach (step Small.ample) RemovalsGranted (ebSrvNew Small.ample) s ∧
      s.pc (.reactor 0) = .opening .read 0 7 ∧ SlabLeft s.events := by
  obtain ⟨s, hreach, hcheck⟩ := reach_of_endsIn (step Small.ample) RemovalsGranted
    (ebSrvNew Small.ample) .disabled
    (Small.boot ++ Small.handOff 7 ++ Small.connect ++ Small.register.take 3)
    (fun s => decide (s.pc (.reactor 0) = .opening .read 0 7)) (by decide +kernel)
  rw [decide_eq_true_eq] at hcheck
  exact ⟨s, hreach, hcheck, pool_suffices (t := .reactor 0) (by decide) (by decide) hreach
    (by decide) (.inr ⟨_, _, _, hcheck⟩)⟩

end Ebot
