import Ebot.Descriptors

/-!
# What is registered

The tables and ready queues of all threads together.  As long as the kernel
grants the removals of the close path, a slab is handed out for every entry,
the event in it is the one the entry is for, and no event is in two places.
What this does not give is that a *queued* event keeps its slab: the close path
of the read callback may put back the slab of a write event that is queued.
-/

namespace Ebot

open Function EdgeSource EventState Transition

/-! ## Tables and queues -/

/-- Every entry of a table is a handed-out slab with the event it stands for,
and the queued flags agree with the ready queues. -/
structure Tables (E : EventState) : Prop where
  used : ∀ t d fd p, E.slot t d fd = some p → E.used p = true
  isFor : ∀ t d fd p, E.slot t d fd = some p → (E.ev p).IsFor d
  fd : ∀ t d fd p, E.slot t d fd = some p → ((E.ev p).fd : Nat) = fd
  tid : ∀ t d fd p, E.slot t d fd = some p → (E.ev p).arg.tid = t
  watched : ∀ t d fd, E.slot t d fd ≠ none → E.watched t fd
  ready : ∀ t, ∀ p ∈ E.readies t, (E.ev p).queued = true
  readyTid : ∀ t, ∀ p ∈ E.readies t, (E.ev p).arg.tid = t
  nodup : ∀ t, (E.readies t).Nodup
  queued : ∀ t d fd p, E.slot t d fd = some p → (E.ev p).queued = true →
    p ∈ E.readies t

namespace Tables

variable {E E' : EventState} {t t' : Tid} {d d' : Dir} {e : SrvEvent}
variable {p q fd fd' : Nat} {ret : Int}

/-- An event is registered in one place. -/
theorem slot_injective
    (h : Tables E)
    (hslot : E.slot t d fd = some p)
    (hslot' : E.slot t' d' fd' = some p) :
    t' = t ∧ d' = d ∧ fd' = fd := by
  refine ⟨?_, ?_, ?_⟩
  · rw [← h.tid t' d' fd' p hslot', h.tid t d fd p hslot]
  · have hd := h.isFor t d fd p hslot
    have hd' := h.isFor t' d' fd' p hslot'
    unfold Event.IsFor at hd hd'
    exact Dir.kide_injective (hd'.symm.trans hd)
  · rw [← h.fd t' d' fd' p hslot', h.fd t d fd p hslot]

/-- A slab that is free is registered nowhere. -/
theorem not_slot_of_free
    (h : Tables E)
    (hfree : E.used p = false) :
    E.slot t d fd ≠ some p := by
  intro hslot
  rw [h.used t d fd p hslot] at hfree
  cases hfree

/-- An event that is not queued is in no ready queue. -/
theorem not_ready_of_unqueued
    (h : Tables E)
    (hunq : (E.ev p).queued = false) :
    p ∉ E.readies t := by
  intro hmem
  rw [h.ready t p hmem] at hunq
  cases hunq

/-- The entries after an event was opened. -/
theorem opened_slot
    (hop : Opened E t d e p ret E')
    (hslot : E'.slot t' d' fd' = some q) :
    ret = 0 ∧ t' = t ∧ d' = d ∧ fd' = e.fd ∧ q = p ∨ E.slot t' d' fd' = some q := by
  rw [hop.slot] at hslot
  split at hslot
  · rename_i hc
    exact .inl ⟨hc.1, hc.2.1, hc.2.2.1, hc.2.2.2.1, (Option.some.inj hslot).symm⟩
  · exact .inr hslot

/-- Opening an event keeps the tables. -/
theorem opened
    (h : Tables E)
    (hop : Opened E t d e p ret E')
    (hd : e.IsFor d)
    (htid : e.arg.tid = t)
    (hunq : e.queued = false) :
    Tables E' := by
  have hne : ∀ {t' d' fd' q}, E.slot t' d' fd' = some q → q ≠ p := by
    rintro t' d' fd' q hslot rfl
    exact h.not_slot_of_free hop.free hslot
  have hev : ∀ {q}, q ≠ p → E'.ev q = E.ev q := by
    intro q hq
    rw [hop.ev, update_of_ne hq]
  have hself : E'.ev p = e := by
    rw [hop.ev, update_self]
  have hmem : ∀ {t' q}, q ∈ E.readies t' → q ≠ p := by
    rintro t' q hq rfl
    exact h.not_ready_of_unqueued hop.unqueued hq
  constructor
  · intro t' d' fd' q hslot
    rw [hop.used]
    rcases opened_slot hop hslot with ⟨-, -, -, -, rfl⟩ | hold
    · rw [if_pos rfl]
    · rw [if_neg (hne hold)]
      exact h.used _ _ _ _ hold
  · intro t' d' fd' q hslot
    rcases opened_slot hop hslot with ⟨-, -, rfl, -, rfl⟩ | hold
    · rw [hself]
      exact hd
    · rw [hev (hne hold)]
      exact h.isFor _ _ _ _ hold
  · intro t' d' fd' q hslot
    rcases opened_slot hop hslot with ⟨-, -, -, rfl, rfl⟩ | hold
    · rw [hself]
    · rw [hev (hne hold)]
      exact h.fd _ _ _ _ hold
  · intro t' d' fd' q hslot
    rcases opened_slot hop hslot with ⟨-, rfl, -, -, rfl⟩ | hold
    · rw [hself]
      exact htid
    · rw [hev (hne hold)]
      exact h.tid _ _ _ _ hold
  · intro t' d' fd' hslot
    obtain ⟨q, hq⟩ := Option.ne_none_iff_exists'.mp hslot
    apply hop.watched
    rcases opened_slot hop hq with ⟨hret, rfl, -, hfd, -⟩ | hold
    · exact .inl ⟨hret, rfl, hfd⟩
    · exact .inr (h.watched t' d' fd' (by simp [hold]))
  · intro t' q hq
    rw [hop.readies] at hq
    rw [hev (hmem hq)]
    exact h.ready t' q hq
  · intro t' q hq
    rw [hop.readies] at hq
    rw [hev (hmem hq)]
    exact h.readyTid t' q hq
  · intro t'
    rw [hop.readies]
    exact h.nodup t'
  · intro t' d' fd' q hslot hq
    rw [hop.readies]
    rcases opened_slot hop hslot with ⟨-, -, -, -, rfl⟩ | hold
    · rw [hself, hunq] at hq
      cases hq
    · rw [hev (hne hold)] at hq
      exact h.queued _ _ _ _ hold hq

/-- Putting back a slab that is registered nowhere keeps the tables. -/
theorem putBack
    (h : Tables E)
    (hput : PutBack E p E')
    (hout : ∀ t d fd, E.slot t d fd ≠ some p) :
    Tables E' := by
  have hslot : ∀ t d fd, E'.slot t d fd = E.slot t d fd := by
    intro t d fd
    simp [EventState.slot, hput.base]
  have hready : ∀ t, E'.readies t = E.readies t := by
    intro t
    simp [EventState.readies, hput.base]
  have hwatched : ∀ t fd, E.watched t fd → E'.watched t fd := by
    intro t fd hw
    simpa [EventState.watched, hput.base] using hw
  constructor
  · intro t d fd q hq
    rw [hslot] at hq
    have hne : q ≠ p := fun he => hout t d fd (he ▸ hq)
    rw [hput.used, if_neg hne]
    exact h.used t d fd q hq
  · simpa only [hslot, hput.ev] using h.isFor
  · simpa only [hslot, hput.ev] using h.fd
  · simpa only [hslot, hput.ev] using h.tid
  · intro t d fd hne
    rw [hslot] at hne
    exact hwatched t fd (h.watched t d fd hne)
  · simpa only [hready, hput.ev] using h.ready
  · simpa only [hready, hput.ev] using h.readyTid
  · simpa only [hready] using h.nodup
  · simpa only [hslot, hready, hput.ev] using h.queued

/-- Closing a registered event whose removal is granted keeps the tables. -/
theorem closed
    (h : Tables E)
    (hslot : E.slot t d fd = some p)
    (hcl : Closed E t p true E') :
    Tables E' := by
  have hfor := h.isFor t d fd p hslot
  have hfd := h.fd t d fd p hslot
  have hgone : E'.slot t d fd = none := by
    rw [hcl.slot d hfor, if_pos ⟨rfl, rfl, hfd.symm⟩]
  have hne : ∀ {t' d' fd' q}, E'.slot t' d' fd' = some q → q ≠ p := by
    rintro t' d' fd' q hq rfl
    obtain ⟨rfl, rfl, rfl⟩ := h.slot_injective hslot (hcl.subset _ _ _ _ hq)
    rw [hgone] at hq
    cases hq
  constructor
  · intro t' d' fd' q hq
    rw [hcl.used, if_neg (hne hq)]
    exact h.used _ _ _ _ (hcl.subset _ _ _ _ hq)
  · intro t' d' fd' q hq
    rw [hcl.ev]
    exact h.isFor _ _ _ _ (hcl.subset _ _ _ _ hq)
  · intro t' d' fd' q hq
    rw [hcl.ev]
    exact h.fd _ _ _ _ (hcl.subset _ _ _ _ hq)
  · intro t' d' fd' q hq
    rw [hcl.ev]
    exact h.tid _ _ _ _ (hcl.subset _ _ _ _ hq)
  · intro t' d' fd' hq
    obtain ⟨q, hq⟩ := Option.ne_none_iff_exists'.mp hq
    have hold := hcl.subset _ _ _ _ hq
    refine hcl.watched d hfor t' fd' (h.watched t' d' fd' (by simp [hold])) ?_
    rintro ⟨rfl, hfd'⟩
    refine ⟨d', ?_, by simp [hold]⟩
    rintro rfl
    rw [hfd', hfd] at hq
    rw [hgone] at hq
    cases hq
  · intro t' q hq
    rw [hcl.readies] at hq
    rw [hcl.ev]
    exact h.ready t' q hq
  · intro t' q hq
    rw [hcl.readies] at hq
    rw [hcl.ev]
    exact h.readyTid t' q hq
  · intro t'
    rw [hcl.readies]
    exact h.nodup t'
  · intro t' d' fd' q hq hqueued
    rw [hcl.ev] at hqueued
    rw [hcl.readies]
    exact h.queued _ _ _ _ (hcl.subset _ _ _ _ hq) hqueued

/-- Collecting a batch keeps the tables. -/
theorem collected
    {reports : List Report}
    (h : Tables E)
    (hcol : Collected E t reports E') :
    Tables E' := by
  obtain ⟨new, hnodup, hready, hnew, hflag⟩ := hcol.queue
  have hcontent := hcol.content
  have hused : ∀ p, E'.used p = E.used p := by
    intro p
    simp [EventState.used, hcol.pool]
  have hmem : ∀ {t' q}, q ∈ E'.readies t' → q ∈ E.readies t' ∨ t' = t ∧ q ∈ new := by
    intro t' q hq
    by_cases ht : t' = t
    · subst ht
      rw [hready, List.mem_append] at hq
      exact hq.imp_right fun hq => ⟨rfl, hq⟩
    · rw [hcol.other t' ht] at hq
      exact .inl hq
  constructor
  · intro t' d' fd' q hq
    rw [hcol.slot] at hq
    rw [hused]
    exact h.used _ _ _ _ hq
  · intro t' d' fd' q hq
    rw [hcol.slot] at hq
    exact (hcontent.kide q).trans (h.isFor _ _ _ _ hq)
  · intro t' d' fd' q hq
    rw [hcol.slot] at hq
    rw [hcontent.fd]
    exact h.fd _ _ _ _ hq
  · intro t' d' fd' q hq
    rw [hcol.slot] at hq
    rw [hcontent.arg]
    exact h.tid _ _ _ _ hq
  · intro t' d' fd' hq
    rw [hcol.slot] at hq
    exact (hcol.watched t' fd').mpr (h.watched t' d' fd' hq)
  · intro t' q hq
    rw [hflag, Bool.or_eq_true, decide_eq_true_eq]
    rcases hmem hq with hq | ⟨-, hq⟩
    · exact .inr (h.ready t' q hq)
    · exact .inl hq
  · intro t' q hq
    rw [hcontent.arg]
    rcases hmem hq with hq | ⟨rfl, hq⟩
    · exact h.readyTid t' q hq
    · obtain ⟨-, d, fd, hslot⟩ := hnew q hq
      exact h.tid _ _ _ _ hslot
  · intro t'
    by_cases ht : t' = t
    · subst ht
      rw [hready, List.nodup_append]
      refine ⟨h.nodup t', hnodup, ?_⟩
      rintro q hq q' hq' rfl
      have hunq := (hnew q hq').1
      rw [h.ready t' q hq] at hunq
      cases hunq
    · rw [hcol.other t' ht]
      exact h.nodup t'
  · intro t' d' fd' q hq hqueued
    rw [hcol.slot] at hq
    rw [hflag, Bool.or_eq_true, decide_eq_true_eq] at hqueued
    have hin : q ∈ new → q ∈ E'.readies t' := by
      intro hqn
      obtain ⟨-, d, fd, hslot⟩ := hnew q hqn
      obtain ⟨rfl, -, -⟩ := h.slot_injective hslot hq
      rw [hready]
      exact List.mem_append_right _ hqn
    have hold : (E.ev q).queued = true → q ∈ E'.readies t' := by
      intro hqq
      have hqr := h.queued _ _ _ _ hq hqq
      by_cases ht : t' = t
      · subst ht
        rw [hready]
        exact List.mem_append_left _ hqr
      · rw [hcol.other t' ht]
        exact hqr
    exact hqueued.elim hin hold

/-- Taking an event from a queue keeps the tables. -/
theorem taken
    (h : Tables E)
    (htk : Taken E t p E') :
    Tables E' := by
  have hcontent := htk.content
  have hused : ∀ p, E'.used p = E.used p := by
    intro p
    simp [EventState.used, htk.pool]
  have hrest : p ∉ E'.readies t := by
    have hnodup := h.nodup t
    rw [htk.queue] at hnodup
    exact (List.nodup_cons.mp hnodup).1
  have hmem : ∀ {t' q}, q ∈ E'.readies t' → q ∈ E.readies t' ∧ q ≠ p := by
    intro t' q hq
    by_cases ht : t' = t
    · subst ht
      refine ⟨?_, fun he => hrest (he ▸ hq)⟩
      rw [htk.queue]
      exact List.mem_cons_of_mem _ hq
    · rw [htk.other t' ht] at hq
      refine ⟨hq, ?_⟩
      rintro rfl
      have htid := h.readyTid t' q hq
      rw [h.readyTid t q (htk.queue ▸ List.mem_cons_self)] at htid
      exact ht htid.symm
  constructor
  · intro t' d' fd' q hq
    rw [htk.slot] at hq
    rw [hused]
    exact h.used _ _ _ _ hq
  · intro t' d' fd' q hq
    rw [htk.slot] at hq
    exact (hcontent.kide q).trans (h.isFor _ _ _ _ hq)
  · intro t' d' fd' q hq
    rw [htk.slot] at hq
    rw [hcontent.fd]
    exact h.fd _ _ _ _ hq
  · intro t' d' fd' q hq
    rw [htk.slot] at hq
    rw [hcontent.arg]
    exact h.tid _ _ _ _ hq
  · intro t' d' fd' hq
    rw [htk.slot] at hq
    exact (htk.watched t' fd').mpr (h.watched t' d' fd' hq)
  · intro t' q hq
    obtain ⟨hold, hne⟩ := hmem hq
    rw [htk.queued]
    simp [hne, h.ready t' q hold]
  · intro t' q hq
    rw [hcontent.arg]
    exact h.readyTid t' q (hmem hq).1
  · intro t'
    by_cases ht : t' = t
    · subst ht
      have hnodup := h.nodup t'
      rw [htk.queue] at hnodup
      exact (List.nodup_cons.mp hnodup).2
    · rw [htk.other t' ht]
      exact h.nodup t'
  · intro t' d' fd' q hq hqueued
    rw [htk.slot] at hq
    rw [htk.queued, Bool.and_eq_true, decide_eq_true_eq] at hqueued
    have hold := h.queued _ _ _ _ hq hqueued.2
    by_cases ht : t' = t
    · subst ht
      rw [htk.queue, List.mem_cons] at hold
      exact hold.resolve_left hqueued.1
    · rw [htk.other t' ht]
      exact hold

end Tables

/-! ## Threads -/

/-- A thread runs the callbacks of its own events: where it acts for a reactor
it is that reactor. -/
def Pc.ActsFor (cfg : Cfg) (t : Tid) : Pc → Prop
  | .pipeRead i | .opening _ i _ | .undoing _ i _ _ | .recv i _ | .closing _ i _ =>
      t = .reactor i
  | .pushing fd _ _ => t = .reactor (cfg.reactorOf fd)
  | .boot | .idle | .dispatch | .accept | .handOff _ | .announce _ | .count
  | .notify _ => True

/-- The slab is handed out and its event is in no table and no queue. -/
structure Private (E : EventState) (p : Nat) : Prop where
  used : E.used p = true
  unqueued : (E.ev p).queued = false
  out : ∀ t d fd, E.slot t d fd ≠ some p

/-- The tables are in order, and no slab a thread is about to put back is of
use to anybody else. -/
structure Orderly (cfg : Cfg) (s : Server) : Prop where
  tables : Tables s.events
  acts : ∀ t, (s.pc t).ActsFor cfg t
  held : ∀ t p, (s.pc t).undoes = some p → Private s.events p
  single : ∀ t t' p, (s.pc t).undoes = some p → (s.pc t').undoes = some p → t' = t

/-- The kernel does not refuse to remove a registered event in the close
path. -/
def RemovalsGranted (s : Server) : Action → Prop
  | .run t env =>
      match s.pc t with
      | .closing d i fd => s.events.slot (.reactor i) d fd ≠ none → env.ctl = true
      | _ => True
  | _ => True

instance (s : Server) : DecidablePred (RemovalsGranted s)
  | .run t _ => by
      dsimp only [RemovalsGranted]
      generalize s.pc t = pc
      rcases pc <;> infer_instance
  | .arrive | .wait _ _ | .work _ _ => isTrue trivial

namespace Private

variable {E E' : EventState} {p q : Nat} {t : Tid} {d : Dir} {e : SrvEvent} {ret : Int}

theorem opened
    (h : Private E q)
    (hop : Opened E t d e p ret E') :
    Private E' q := by
  have hne : q ≠ p := by
    rintro rfl
    have hfree := hop.free
    rw [h.used] at hfree
    cases hfree
  refine ⟨?_, ?_, ?_⟩
  · rw [hop.used, if_neg hne]
    exact h.used
  · rw [hop.ev, update_of_ne hne]
    exact h.unqueued
  · intro t' d' fd' hslot
    rcases Tables.opened_slot hop hslot with ⟨-, -, -, -, he⟩ | hold
    · exact hne he
    · exact h.out t' d' fd' hold

theorem putBack
    (h : Private E q)
    (hne : q ≠ p)
    (hput : PutBack E p E') :
    Private E' q := by
  refine ⟨?_, ?_, ?_⟩
  · rw [hput.used, if_neg hne]
    exact h.used
  · rw [hput.ev]
    exact h.unqueued
  · intro t' d' fd'
    simpa [EventState.slot, hput.base] using h.out t' d' fd'

theorem closed
    {fd : Nat} {granted : Bool}
    (h : Private E q)
    (hslot : E.slot t d fd = some p)
    (hcl : Closed E t p granted E') :
    Private E' q := by
  have hne : q ≠ p := by
    rintro rfl
    exact h.out t d fd hslot
  refine ⟨?_, ?_, ?_⟩
  · rw [hcl.used, if_neg hne]
    exact h.used
  · rw [hcl.ev]
    exact h.unqueued
  · exact fun t' d' fd' hq => h.out t' d' fd' (hcl.subset _ _ _ _ hq)

theorem collected
    {reports : List Report}
    (h : Private E q)
    (hcol : Collected E t reports E') :
    Private E' q := by
  obtain ⟨new, -, -, hnew, hflag⟩ := hcol.queue
  have hout : q ∉ new := by
    intro hq
    obtain ⟨-, d, fd, hslot⟩ := hnew q hq
    exact h.out t d fd hslot
  refine ⟨?_, ?_, ?_⟩
  · rw [EventState.used, hcol.pool]
    exact h.used
  · rw [hflag]
    simp [hout, h.unqueued]
  · intro t' d' fd'
    rw [hcol.slot]
    exact h.out t' d' fd'

theorem taken
    (h : Private E q)
    (htk : Taken E t p E') :
    Private E' q := by
  refine ⟨?_, ?_, ?_⟩
  · rw [EventState.used, htk.pool]
    exact h.used
  · rw [htk.queued]
    simp [h.unqueued]
  · intro t' d' fd'
    rw [htk.slot]
    exact h.out t' d' fd'

end Private

section Steps

variable {cfg : Cfg} {s s' : Server} {a : Action} {t : Tid}

theorem tables_ebSrvNew : Tables (ebSrvNew cfg).events := by
  have hslot : ∀ t d fd, (ebSrvNew cfg).events.slot t d fd = none := by
    intro t d fd
    cases t <;> cases d <;> rfl
  have hready : ∀ t, (ebSrvNew cfg).events.readies t = [] := by
    intro t
    cases t <;> rfl
  constructor
  all_goals intro t
  all_goals first
    | intro d fd p h
      rw [hslot] at h
      cases h
    | intro d fd h
      exact absurd (hslot t d fd) h
    | intro p h
      rw [hready] at h
      cases h
    | rw [hready]
      exact List.nodup_nil

theorem orderly_ebSrvNew : Orderly cfg (ebSrvNew cfg) where
  tables := tables_ebSrvNew
  acts := fun t => trivial
  held := by
    intro t p h
    cases h
  single := by
    intro t t' p h
    cases h

theorem bootEvent_tid : (bootEvent cfg t).arg.tid = t := by
  cases t <;> rfl

theorem bootEvent_unqueued : (bootEvent cfg t).queued = false := by
  cases t <;> rfl

theorem Pc.acts_start
    (cfg : Cfg)
    {fd : Fd} {cb : Callback} {arg : Arg} {pc : Pc}
    (h : Pc.start fd cb arg = some pc) :
    pc.ActsFor cfg arg.tid ∧ pc.undoes = none := by
  cases cb <;> cases arg <;> cases h <;> exact ⟨by trivial, rfl⟩

theorem Pc.acts_opened
    {i : Nat} {fd : Fd} {d : Dir}
    (h : t = .reactor i) :
    (Pc.opened i fd d).ActsFor cfg t ∧ (Pc.opened i fd d).undoes = none := by
  cases d with
  | read => exact ⟨h, rfl⟩
  | write => exact ⟨trivial, rfl⟩

theorem Pc.acts_closed
    {fd : Fd} {d : Dir}
    (h : t = .reactor (cfg.reactorOf fd)) :
    (Pc.closed (cfg.reactorOf fd) fd d).ActsFor cfg t ∧
      (Pc.closed (cfg.reactorOf fd) fd d).undoes = none := by
  cases d with
  | read => exact ⟨h, rfl⟩
  | write => exact ⟨h, rfl⟩

theorem Pc.acts_received
    {fd : Fd} {r : RecvResult}
    (h : t = .reactor (cfg.reactorOf fd)) :
    (Pc.received (cfg.reactorOf fd) fd r).ActsFor cfg t ∧
      (Pc.received (cfg.reactorOf fd) fd r).undoes = none := by
  rcases Pc.received_cases (cfg.reactorOf fd) fd r with ⟨-, he⟩ | ⟨-, he⟩ | ⟨-, -, he⟩ <;>
    rw [he]
  · exact ⟨h, rfl⟩
  · exact ⟨trivial, rfl⟩
  · exact ⟨h, rfl⟩

/-- Steps after which no thread holds a slab it did not hold before. -/
theorem Orderly.keep
    (h : Orderly cfg s)
    (htables : Tables s'.events)
    (hacts : ∀ t, (s'.pc t).ActsFor cfg t)
    (hundoes : ∀ t p, (s'.pc t).undoes = some p → (s.pc t).undoes = some p)
    (hprivate : ∀ t p, (s'.pc t).undoes = some p →
      Private s.events p → Private s'.events p) :
    Orderly cfg s' := by
  refine ⟨htables, hacts, ?_, ?_⟩
  · intro t p hp
    exact hprivate t p hp (h.held t p (hundoes t p hp))
  · intro t t' p hp hp'
    exact h.single t t' p (hundoes t p hp) (hundoes t' p hp')

/-- A thread goes on to a place where it holds no slab. -/
theorem undoes_goto
    {pc : Pc}
    (hpc : pc.undoes = none) :
    ∀ t' p, ((s.goto t pc).pc t').undoes = some p →
      t' ≠ t ∧ (s.pc t').undoes = some p := by
  intro t' p hp
  by_cases ht : t' = t
  · subst ht
    rw [Server.goto_pc_self, hpc] at hp
    cases hp
  · refine ⟨ht, ?_⟩
    simpa [update_of_ne ht] using hp

/-- An add failed: the thread holds the slab it got. -/
theorem Orderly.openFailed
    {d : Dir} {i : Nat} {fd : Fd} {p : Nat} {events : EventState}
    (h : Orderly cfg s)
    (ht : t = .reactor i)
    (hop : Opened s.events (.reactor i) d (clientEvent d fd i) p (-1) events) :
    Orderly cfg ({ s with events }.goto t (.undoing d i fd p)) := by
  have htables := h.tables.opened hop clientEvent_isFor rfl rfl
  have hslot : ∀ t' d' fd', events.slot t' d' fd' = s.events.slot t' d' fd' := by
    intro t' d' fd'
    rw [hop.slot]
    simp
  have hnew : Private events p := by
    refine ⟨?_, ?_, ?_⟩
    · rw [hop.used, if_pos rfl]
    · rw [hop.ev, update_self]
      rfl
    · intro t' d' fd'
      rw [hslot]
      exact h.tables.not_slot_of_free hop.free
  have hold : ∀ t' q, t' ≠ t → (s.pc t').undoes = some q → q ≠ p := by
    rintro t' q - hq rfl
    have hfree := hop.free
    rw [(h.held t' q hq).used] at hfree
    cases hfree
  have hcase : ∀ t' q, (({ s with events }.goto t (.undoing d i fd p)).pc t').undoes = some q →
      t' = t ∧ q = p ∨ t' ≠ t ∧ (s.pc t').undoes = some q := by
    intro t' q hq
    by_cases ht' : t' = t
    · subst ht'
      rw [Server.goto_pc_self] at hq
      cases hq
      exact .inl ⟨rfl, rfl⟩
    · refine .inr ⟨ht', ?_⟩
      simpa [update_of_ne ht'] using hq
  refine ⟨htables, ?_, ?_, ?_⟩
  · exact Server.forall_pc_goto (P := fun t' pc => pc.ActsFor cfg t')
      (fun t' _ => h.acts t') ht
  · intro t' q hq
    rcases hcase t' q hq with ⟨-, rfl⟩ | ⟨-, hq⟩
    · exact hnew
    · exact (h.held t' q hq).opened hop
  · intro t₁ t₂ q h₁ h₂
    rcases hcase t₁ q h₁ with ⟨rfl, rfl⟩ | ⟨hne₁, hq₁⟩
    · rcases hcase t₂ q h₂ with ⟨rfl, -⟩ | ⟨hne₂, hq₂⟩
      · rfl
      · exact absurd rfl (hold t₂ q hne₂ hq₂)
    · rcases hcase t₂ q h₂ with ⟨rfl, rfl⟩ | ⟨-, hq₂⟩
      · exact absurd rfl (hold t₁ q hne₁ hq₁)
      · exact h.single t₁ t₂ q hq₁ hq₂

/-- A removal in the close path that the kernel does not refuse is granted: the
descriptor is in the interest set. -/
theorem Tables.granted
    {d : Dir} {i : Nat} {fd : Fd} {p : Nat} {env : Env} {granted : Bool}
    (h : Tables s.events)
    (hpc : s.pc t = .closing d i fd)
    (hslot : s.events.slot (.reactor i) d fd = some p)
    (hgood : RemovalsGranted s (.run t env))
    (hgrant : env.ctl = true →
      s.events.watched (.reactor i) (s.events.ev p).fd → granted = true) :
    granted = true := by
  simp only [RemovalsGranted, hpc, hslot] at hgood
  refine hgrant (hgood (by simp)) ?_
  rw [h.fd _ _ _ _ hslot]
  exact h.watched _ d fd (by simp [hslot])

/-- One move with the removals granted. -/
theorem Orderly.move
    (h : Orderly cfg s)
    (hdesc : Descriptors cfg s)
    (hgood : RemovalsGranted s a)
    (hmove : Move cfg s a s') :
    Orderly cfg s' := by
  have hstay : ∀ t p, (s.pc t).undoes = some p → (s.pc t).undoes = some p :=
    fun _ _ => id
  have hsame : ∀ t p, (s.pc t).undoes = some p →
      Private s.events p → Private s.events p :=
    fun _ _ _ => id
  -- steps of a thread that only goes on, in an event state the slabs survive
  have hgo : ∀ {t pc} {s₁ : Server}, s₁.pc = s.pc → Tables s₁.events →
      pc.ActsFor cfg t ∧ pc.undoes = none →
      (∀ t' p, t' ≠ t → (s.pc t').undoes = some p →
        Private s.events p → Private s₁.events p) →
      Orderly cfg (s₁.goto t pc) := by
    intro t pc s₁ hpcs htables hpc hprivate
    have hun : ∀ t' p, ((s₁.goto t pc).pc t').undoes = some p →
        t' ≠ t ∧ (s.pc t').undoes = some p := by
      intro t' p hp
      rw [← hpcs]
      exact undoes_goto hpc.2 t' p hp
    refine h.keep htables ?_ (fun t' p hp => (hun t' p hp).2) fun t' p hp =>
      hprivate t' p (hun t' p hp).1 (hun t' p hp).2
    refine Server.forall_pc_goto (P := fun t' pc => pc.ActsFor cfg t') (fun t' _ => ?_) hpc.1
    rw [hpcs]
    exact h.acts t'
  have hfree : ∀ {t pc} {s₁ : Server}, s₁.pc = s.pc → s₁.events = s.events →
      pc.ActsFor cfg t ∧ pc.undoes = none → Orderly cfg (s₁.goto t pc) := by
    intro t pc s₁ hpcs hevents hpc
    refine hgo hpcs (hevents ▸ h.tables) hpc fun _ _ _ _ hp => ?_
    rw [hevents]
    exact hp
  cases hmove with
  | arrived => exact h.keep h.tables h.acts hstay hsame
  | booted _ _ hop =>
      exact hgo rfl (h.tables.opened hop bootEvent_isFor bootEvent_tid bootEvent_unqueued)
        ⟨trivial, rfl⟩ fun _ _ _ _ hp => hp.opened hop
  | waited _ _ _ hcol =>
      exact hgo rfl (h.tables.collected hcol) ⟨trivial, rfl⟩
        fun _ _ _ _ hp => hp.collected hcol
  | drained => exact hfree rfl rfl ⟨trivial, rfl⟩
  | ignored _ _ htk _ =>
      exact h.keep (h.tables.taken htk) h.acts hstay fun _ _ _ hp => hp.taken htk
  | @started t _ p events _ _ _ _ htk _ hstart =>
      obtain ⟨hacts, hundoes⟩ := Pc.acts_start cfg hstart
      have htid : (events.ev p).arg.tid = t := by
        rw [htk.content.arg]
        exact h.tables.readyTid t p (htk.queue ▸ List.mem_cons_self)
      exact hgo rfl (h.tables.taken htk) ⟨htid ▸ hacts, hundoes⟩
        fun _ _ _ _ hp => hp.taken htk
  | writable _ _ htk _ _ =>
      exact h.keep (h.tables.taken htk) h.acts hstay fun _ _ _ hp => hp.taken htk
  | acceptFailed => exact hfree rfl rfl ⟨trivial, rfl⟩
  | rejected => exact hfree rfl rfl ⟨trivial, rfl⟩
  | accepted => exact hfree rfl rfl ⟨trivial, rfl⟩
  | handedOff => exact hfree rfl rfl ⟨trivial, rfl⟩
  | handOffFailed => exact hfree rfl rfl ⟨trivial, rfl⟩
  | announced => exact hfree rfl rfl ⟨trivial, rfl⟩
  | counted => exact hfree rfl rfl ⟨trivial, rfl⟩
  | pipeEmpty => exact hfree rfl rfl ⟨trivial, rfl⟩
  | @pipeTaken t _ _ _ _ _ hpc =>
      have ht := h.acts t
      rw [hpc] at ht
      exact hfree rfl rfl ⟨ht, rfl⟩
  | exhausted => exact hfree rfl rfl ⟨trivial, rfl⟩
  | @opened t _ _ _ _ _ _ _ hpc hop =>
      have ht := h.acts t
      rw [hpc] at ht
      exact hgo rfl (h.tables.opened hop clientEvent_isFor rfl rfl) (Pc.acts_opened ht)
        fun _ _ _ _ hp => hp.opened hop
  | @openFailed t _ _ _ _ _ _ _ hpc hop =>
      have ht := h.acts t
      rw [hpc] at ht
      exact h.openFailed ht hop
  | @undone t _ _ _ _ p _ _ hpc hput =>
      have ht := h.acts t
      rw [hpc] at ht
      have hp := h.held t p (by rw [hpc]; rfl)
      refine hgo rfl (h.tables.putBack hput hp.out) (Pc.acts_opened ht)
        fun t' q ht' hq hprivate => hprivate.putBack ?_ hput
      rintro rfl
      exact ht' (h.single t t' q (by rw [hpc]; rfl) hq)
  | @received t _ _ _ _ hpc =>
      have ht := h.acts t
      rw [hpc] at ht
      obtain ⟨-, rfl⟩ := hdesc.at_index hpc rfl rfl
      exact hfree rfl rfl (Pc.acts_received ht)
  | @closedNone t _ _ _ _ _ hpc =>
      have ht := h.acts t
      rw [hpc] at ht
      obtain ⟨-, rfl⟩ := hdesc.at_index hpc rfl rfl
      exact hfree rfl rfl (Pc.acts_closed ht)
  | @closed t _ d i fd p granted _ _ hpc hslot hcl hgrant =>
      have ht := h.acts t
      rw [hpc] at ht
      obtain ⟨-, rfl⟩ := hdesc.at_index hpc rfl rfl
      obtain rfl := h.tables.granted hpc hslot hgood hgrant
      exact hgo rfl (h.tables.closed hslot hcl) (Pc.acts_closed ht)
        fun _ _ _ _ hp => hp.closed hslot hcl
  | refused => exact hfree rfl rfl ⟨trivial, rfl⟩
  | pushed => exact hfree rfl rfl ⟨trivial, rfl⟩
  | notified => exact hfree rfl rfl ⟨trivial, rfl⟩
  | woke => exact h.keep h.tables h.acts hstay hsame
  | handled => exact h.keep h.tables h.acts hstay hsame
  | emptied => exact h.keep h.tables h.acts hstay hsame

/-- Steps of other threads leave the queue and the tables of a reactor alone,
and, but for the hand-off, its pipe. -/
theorem Move.reactor_frame
    {i : Nat}
    (horderly : Orderly cfg s)
    (hmove : Move cfg s a s')
    (ha : a.thread ≠ some (.reactor i)) :
    s'.events.readies (.reactor i) = s.events.readies (.reactor i) ∧
      (∀ d fd, s'.events.slot (.reactor i) d fd = s.events.slot (.reactor i) d fd) ∧
      (s'.pipe i = s.pipe i ∨ (s'.pipe i).Covered) := by
  have hne : ∀ {t}, some t ≠ some (Tid.reactor i) → Tid.reactor i ≠ t :=
    fun h he => h (he ▸ rfl)
  have hacts : ∀ {t pc}, s.pc t = pc → pc.ActsFor cfg t := fun hpc => hpc ▸ horderly.acts _
  have hopened : ∀ {t d e p ret E}, Opened s.events t d e p ret E → Tid.reactor i ≠ t →
      ∀ d fd, E.slot (.reactor i) d fd = s.events.slot (.reactor i) d fd := by
    intro t d e p ret E hop ht d fd
    rw [hop.slot, if_neg fun hc => ht hc.2.1]
  cases hmove with
  | booted _ _ hop => exact ⟨hop.readies _, hopened hop (hne ha), .inl rfl⟩
  | @waited t _ _ _ _ _ hcol =>
      have ht : ¬ t = .reactor i := fun he => ha (he ▸ rfl)
      exact ⟨hcol.other _ (hne ha), hcol.slot _,
        .inl (by simp [ht, Source.reportIf_false])⟩
  | ignored _ _ htk => exact ⟨htk.other _ (hne ha), htk.slot _, .inl rfl⟩
  | started _ _ htk => exact ⟨htk.other _ (hne ha), htk.slot _, .inl rfl⟩
  | writable _ _ htk =>
      exact ⟨htk.other _ (hne ha), htk.slot _, .inl rfl⟩
  | @handedOff t _ fd =>
      refine ⟨rfl, fun _ _ => rfl, ?_⟩
      by_cases hi : i = cfg.reactorOf fd
      · subst hi
        right
        simpa using Source.covered_arrive
      · exact .inl (by simp [update_of_ne hi])
  | @pipeTaken t _ j _ _ _ hpc =>
      refine ⟨rfl, fun _ _ => rfl, .inl ?_⟩
      have ht : t = .reactor j := hacts hpc
      have hij : i ≠ j := by
        rintro rfl
        exact hne ha ht.symm
      simp [update_of_ne hij]
  | opened _ hpc hop =>
      have ht := hacts hpc
      exact ⟨hop.readies _, hopened hop (ht ▸ hne ha), .inl rfl⟩
  | openFailed _ hpc hop =>
      have ht := hacts hpc
      exact ⟨hop.readies _, hopened hop (ht ▸ hne ha), .inl rfl⟩
  | undone _ _ hput =>
      exact ⟨by simp [EventState.readies, hput.base],
        fun d fd => by simp [EventState.slot, hput.base], .inl rfl⟩
  | closed _ hpc _ hcl =>
      have ht := hacts hpc
      exact ⟨hcl.readies _, hcl.other _ (ht ▸ hne ha), .inl rfl⟩
  | _ => exact ⟨rfl, fun _ _ => rfl, .inl rfl⟩

/-- In every run with the removals granted the tables are in order. -/
theorem orderly_of_reach
    {good : Server → Action → Prop}
    (hgranted : ∀ s a, good s a → RemovalsGranted s a)
    (hreach : Reach (step cfg) good (ebSrvNew cfg) s) :
    Orderly cfg s := by
  refine hreach.invariant_of (J := Descriptors cfg) (fun s hr => descriptors_of_reach hr)
    orderly_ebSrvNew ?_
  intro s a s' hdesc _ h hgood hstep
  exact h.move hdesc (hgranted s a hgood) (step_move hstep)

end Steps

end Ebot
