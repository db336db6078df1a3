import Ebot.EventTables
import Ebot.Mpool

/-!
# The shared events of the server

The slab pool of events, the heap of events it hands out, and the event base of
every thread.  A slab and the event in it have the same number.  The operations
are the pieces of the callbacks that lie between two calls of the pool: taking
a slab, filling in its event and adding it; removing an event and putting its
slab back; and the two halves of a loop pass.
-/

namespace Ebot

open Function

/-- The threads that run an event base: the master and the reactors. -/
inductive Tid where
  | master
  | reactor (i : Nat)
deriving DecidableEq

/-- The event callbacks. -/
inductive Callback where
  | ebot_srv_accept
  | reactor_pool_pipe_callback
  | reactor_pool_client_read_callback
  | reacto_pool_client_write_callback
deriving DecidableEq

/-- What the `arg` of an event points to. -/
inductive Arg where
  | srv
  | reactor (i : Nat)
deriving DecidableEq

/-- The thread whose base the argument stands for. -/
def Arg.tid : Arg → Tid
  | .srv => .master
  | .reactor i => .reactor i

/-- An event of the server. -/
abbrev SrvEvent := Event Callback Arg

/-- The callback with which a connection is registered for a direction. -/
def clientCallback : Dir → Callback
  | .read => .reactor_pool_client_read_callback
  | .write => .reacto_pool_client_write_callback

/-- The event with which a connection is registered for a direction. -/
def clientEvent (d : Dir) (fd : Fd) (i : Nat) : SrvEvent :=
  eventOf d fd (some (clientCallback d)) (.reactor i)

/-- The pool, the heap and the bases. -/
structure EventState where
  pool : Mpool
  ev : Nat → SrvEvent
  base : Tid → EbotBase

namespace EventState

/-- The event registered in a thread's base. -/
def slot (E : EventState) (t : Tid) (d : Dir) (fd : Nat) : Option Nat :=
  (E.base t).slot d fd

/-- The ready queue of a thread's base. -/
def readies (E : EventState) (t : Tid) : List Nat :=
  (E.base t).event_readies

/-- The descriptor is in the interest set of a thread's base. -/
def watched (E : EventState) (t : Tid) (fd : Nat) : Prop :=
  (E.base t).epoll fd ≠ none

/-- The slab is handed out. -/
def used (E : EventState) (p : Nat) : Bool :=
  (E.pool.slabs p).used

/-- `mpool_get_with_lock`, then `event_read` or `event_write`, then
`ebot_add_event`: the slab and the return value of the add, or `none` when no
slab is left. -/
def getAdd (E : EventState) (t : Tid) (ctl : Bool) (e : SrvEvent) :
    Except Stop (Option (Nat × Int) × EventState) := do
  let (o, pool) ← mpoolGet E.pool
  match o with
  | none => .ok (none, { E with pool })
  | some p =>
      let ev ← eventInit E.ev p e
      let (ret, base) ← ebotAddEvent (.strict ctl) (E.base t) p (ev p)
      .ok (some (p, ret), { pool, ev, base := update E.base t base })

/-- `mpool_put_with_lock`. -/
def put (E : EventState) (p : Nat) : Except Stop EventState := do
  let pool ← mpoolPut E.pool p
  .ok { E with pool }

/-- One of the two `if`s of the close path: the event registered for a
direction, if any, is removed and its slab put back. -/
def delPut (E : EventState) (t : Tid) (ctl : Bool) (d : Dir) (fd : Nat) :
    Except Stop EventState := do
  let o ← ((E.base t).waits d).get fd
  match o with
  | none => .ok E
  | some p =>
      let (_, base) ← ebotDelEvent ctl (E.base t) (E.ev p)
      put { E with base := update E.base t base } p

/-- The reports of one `epoll_wait` are collected. -/
def collect (E : EventState) (t : Tid) (reports : List Report) :
    Except Stop EventState := do
  let (base, ev) ← ebotLoopCollect (E.base t) E.ev reports
  .ok { E with base := update E.base t base, ev }

/-- The next ready event is taken from the queue. -/
def next (E : EventState) (t : Tid) : Option (Nat × EventState) :=
  match dispatchNext (E.base t) E.ev with
  | none => none
  | some (p, base, ev) => some (p, { E with base := update E.base t base, ev })

end EventState

/-! ## What the operations do -/

/-- The pool keeps its size and its links stay inside. -/
structure KeepsPool (E E' : EventState) : Prop where
  num : E'.pool.slab_num = E.pool.slab_num
  linked : E.pool.Linked → E'.pool.Linked

/-- The fields of an event that loops do not touch. -/
structure SameContent (E E' : EventState) : Prop where
  kide : ∀ p, (E'.ev p).kide = (E.ev p).kide
  fd : ∀ p, (E'.ev p).fd = (E.ev p).fd
  cb : ∀ p, (E'.ev p).cb = (E.ev p).cb
  arg : ∀ p, (E'.ev p).arg = (E.ev p).arg

/-- Loops do not change what callback an event makes. -/
theorem SameContent.callback
    {E E' : EventState} {p : Nat}
    (h : SameContent E E') :
    (E'.ev p).callback = (E.ev p).callback := by
  unfold Event.callback
  rw [h.kide, h.cb]

namespace EventState

variable {E E' : EventState} {t t' : Tid} {d d' : Dir} {fd p q : Nat}
variable {ctl : Bool} {e : SrvEvent}

/-- What opening an event that got slab `p` and answer `ret` does. -/
structure Opened (E : EventState) (t : Tid) (d : Dir) (e : SrvEvent)
    (p : Nat) (ret : Int) (E' : EventState) : Prop where
  pool : KeepsPool E E'
  inside : E.pool.Linked → p < E.pool.slab_num
  free : E.used p = false
  unqueued : (E.ev p).queued = false
  used : ∀ q, E'.used q = if q = p then true else E.used q
  ev : E'.ev = update E.ev p e
  readies : ∀ t', E'.readies t' = E.readies t'
  answer : ret = 0 ∨ ret = -1
  slot : ∀ t' d' fd, E'.slot t' d' fd =
    if ret = 0 ∧ t' = t ∧ d' = d ∧ fd = e.fd ∧ E.slot t' d' fd = none then some p
    else E.slot t' d' fd
  watched : ∀ t' (fd : Nat), ret = 0 ∧ t' = t ∧ fd = e.fd ∨ E.watched t' fd →
    E'.watched t' fd

theorem getAdd_none
    (h : E.getAdd t ctl e = .ok (none, E')) :
    E' = E := by
  unfold getAdd at h
  obtain ⟨⟨o, pool⟩, hget, h⟩ := bind_eq_ok.mp h
  cases o with
  | none =>
      cases h
      rw [mpoolGet_none hget]
  | some p =>
      obtain ⟨ev, -, h⟩ := bind_eq_ok.mp h
      obtain ⟨⟨ret, base⟩, -, h⟩ := bind_eq_ok.mp h
      cases h

theorem getAdd_some
    {ret : Int}
    (hd : e.IsFor d)
    (h : E.getAdd t ctl e = .ok (some (p, ret), E')) :
    Opened E t d e p ret E' := by
  unfold getAdd at h
  obtain ⟨⟨o, pool⟩, hget, h⟩ := bind_eq_ok.mp h
  cases o with
  | none => cases h
  | some p' =>
      obtain ⟨ev, hev, h⟩ := bind_eq_ok.mp h
      obtain ⟨⟨ret', base⟩, hadd, h⟩ := bind_eq_ok.mp h
      cases h
      obtain ⟨hhead, hfree, hnum, -, hused⟩ := mpoolGet_some hget
      unfold eventInit at hev
      split at hev
      · cases hev
      rename_i hunq
      cases hev
      rw [update_self] at hadd
      have hready : base.event_readies = (E.base t).event_readies := by
        rcases ebotAddEvent_strict hd hadd with ⟨-, rfl⟩ | ⟨-, hr, -⟩
        · rfl
        · exact hr
      refine ⟨⟨hnum, fun hl => mpoolGet_linked hl hget⟩, fun hl => hl.head _ hhead,
        hfree, by simpa using hunq, hused, rfl, ?_, ?_, ?_, ?_⟩
      · intro t'
        by_cases ht : t' = t
        · subst ht
          simpa [readies] using hready
        · simp [readies, update_of_ne ht]
      · rcases ebotAddEvent_strict hd hadd with ⟨hret, -⟩ | ⟨hret, -⟩
        · exact .inr hret
        · exact .inl hret
      · intro t' d' fd
        by_cases ht : t' = t
        · subst ht
          simp only [slot, update_self, true_and]
          rcases ebotAddEvent_strict hd hadd with ⟨rfl, rfl⟩ | ⟨rfl, -, hslot⟩
          · simp
          · simpa using hslot d' fd
        · simp [slot, ht]
      · intro t' fd hin
        by_cases ht : t' = t
        · subst ht
          simp only [watched, update_self, true_and] at hin ⊢
          rcases ebotAddEvent_strict hd hadd with ⟨rfl, rfl⟩ | ⟨rfl, -, -⟩
          · exact hin.resolve_left fun h => absurd h.1 (by decide)
          · exact ebotAddEvent_epoll hadd (hin.imp_left And.right)
        · simp only [watched, update_of_ne ht, ht, false_and, and_false, false_or] at hin ⊢
          exact hin

/-- What putting a slab back does. -/
structure PutBack (E : EventState) (p : Nat) (E' : EventState) : Prop where
  pool : KeepsPool E E'
  used : ∀ q, E'.used q = if q = p then false else E.used q
  ev : E'.ev = E.ev
  base : E'.base = E.base

theorem put_putBack
    (h : E.put p = .ok E') :
    PutBack E p E' := by
  unfold put at h
  obtain ⟨pool, hput, h⟩ := bind_eq_ok.mp h
  cases h
  obtain ⟨hnum, hused⟩ := mpoolPut_used hput
  exact ⟨⟨hnum, fun hl => mpoolPut_linked hl hput⟩, hused, rfl, rfl⟩

/-- What closing the event `p` of a direction does; `granted` says whether
`ebot_del_event` returned 0. -/
structure Closed (E : EventState) (t : Tid) (p : Nat) (granted : Bool)
    (E' : EventState) : Prop where
  pool : KeepsPool E E'
  used : ∀ q, E'.used q = if q = p then false else E.used q
  ev : E'.ev = E.ev
  readies : ∀ t', E'.readies t' = E.readies t'
  subset : ∀ t' d' fd' q, E'.slot t' d' fd' = some q → E.slot t' d' fd' = some q
  other : ∀ t', t' ≠ t → ∀ d' fd', E'.slot t' d' fd' = E.slot t' d' fd'
  slot : ∀ d, (E.ev p).IsFor d → ∀ d' fd', E'.slot t d' fd' =
    if granted = true ∧ d' = d ∧ fd' = (E.ev p).fd then none
    else E.slot t d' fd'
  watched : ∀ d, (E.ev p).IsFor d → ∀ t' (fd' : Nat), E.watched t' fd' →
    (t' = t ∧ fd' = (E.ev p).fd → ∃ d', d' ≠ d ∧ E.slot t d' fd' ≠ none) →
    E'.watched t' fd'

theorem delPut_cases
    (h : E.delPut t ctl d fd = .ok E') :
    E.slot t d fd = none ∧ E' = E ∨
      ∃ p granted, E.slot t d fd = some p ∧ Closed E t p granted E' ∧
        (ctl = true → E.watched t (E.ev p).fd → granted = true) := by
  unfold delPut at h
  obtain ⟨o, hget, h⟩ := bind_eq_ok.mp h
  have ho : E.slot t d fd = o := (Slots.get_eq_ok hget).symm
  cases o with
  | none =>
      cases h
      exact .inl ⟨ho, rfl⟩
  | some p =>
      right
      obtain ⟨⟨ret, base⟩, hdel, h⟩ := bind_eq_ok.mp h
      refine ⟨p, decide (ret = 0), ho, ?_, ?_⟩
      rotate_left
      · rintro rfl hin
        simpa using ebotDelEvent_grants hdel hin
      obtain ⟨hpool, hused, hev, hbase⟩ := put_putBack h
      have hbase' : E'.base = update E.base t base := hbase
      obtain ⟨hready, hsub⟩ := ebotDelEvent_subset hdel
      refine ⟨⟨hpool.num, hpool.linked⟩, hused, hev, ?_, ?_, ?_, ?_, ?_⟩
      · intro t'
        by_cases ht : t' = t
        · subst ht
          simpa [readies, hbase'] using hready
        · simp [readies, hbase', update_of_ne ht]
      · intro t' d' fd' q hq
        by_cases ht : t' = t
        · subst ht
          simp only [slot, hbase', update_self] at hq
          exact hsub d' fd' q hq
        · simpa [slot, hbase', update_of_ne ht] using hq
      · intro t' ht d' fd'
        simp [slot, hbase', update_of_ne ht]
      · intro d₀ hd₀ d' fd'
        simp only [slot, hbase', update_self, decide_eq_true_eq]
        rcases ebotDelEvent_slot hd₀ hdel with ⟨rfl, rfl⟩ | ⟨rfl, -, hslot⟩
        · simp
        · simpa using hslot d' fd'
      · intro d₀ hd₀ t' fd' hin hother
        by_cases ht : t' = t
        · subst ht
          simp only [watched, hbase', update_self] at hin ⊢
          rcases ebotDelEvent_slot hd₀ hdel with ⟨-, rfl⟩ | ⟨rfl, -, -⟩
          · exact hin
          · exact ebotDelEvent_epoll hd₀ hdel hin fun he => hother ⟨rfl, he⟩
        · simpa [watched, hbase', update_of_ne ht] using hin

/-- What collecting a batch of reports at thread `t` does. -/
structure Collected (E : EventState) (t : Tid) (reports : List Report)
    (E' : EventState) : Prop where
  pool : E'.pool = E.pool
  content : SameContent E E'
  slot : ∀ t' d fd, E'.slot t' d fd = E.slot t' d fd
  watched : ∀ t' fd, E'.watched t' fd ↔ E.watched t' fd
  other : ∀ t', t' ≠ t → E'.readies t' = E.readies t'
  queue : ∃ new : List Nat, new.Nodup ∧
    E'.readies t = E.readies t ++ new ∧
    (∀ p ∈ new, (E.ev p).queued = false ∧ ∃ d fd, E.slot t d fd = some p) ∧
    ∀ p, (E'.ev p).queued = (decide (p ∈ new) || (E.ev p).queued)
  selected : ∀ rep ∈ reports, ∀ d p, rep.events.reports d = true →
    E.slot t d rep.fd = some p → (E'.ev p).queued = true

theorem collect_collected
    {reports : List Report}
    (h : E.collect t reports = .ok E') :
    Collected E t reports E' := by
  unfold collect at h
  obtain ⟨⟨base, ev⟩, hcollect, h⟩ := bind_eq_ok.mp h
  cases h
  obtain ⟨⟨new, hnew⟩, hsel⟩ := ebotLoopCollect_queues hcollect
  refine ⟨rfl, ?_, ?_, ?_, ?_, ⟨new, hnew.nodup, ?_, ?_, ?_⟩, hsel⟩
  · have hpart : ∀ p, ev p = E.ev p ∨ ev p = { E.ev p with queued := true } := by
      intro p
      rw [hnew.heap]
      unfold markQueued
      split
      · exact .inr rfl
      · exact .inl rfl
    constructor
    all_goals
      intro p
      rcases hpart p with hp | hp <;> simp only [hp]
  · intro t' d fd
    by_cases ht : t' = t
    · subst ht
      simpa [slot] using hnew.slot
    · simp [slot, update_of_ne ht]
  · intro t' fd
    by_cases ht : t' = t
    · subst ht
      simp [watched, hnew.base]
    · simp [watched, update_of_ne ht]
  · intro t' ht
    simp [readies, update_of_ne ht]
  · simp [readies, hnew.base]
  · exact fun p hp => ⟨hnew.fresh p hp, hnew.registered p hp⟩
  · intro p
    dsimp only
    rw [hnew.heap]
    unfold markQueued
    by_cases hp : p ∈ new <;> simp [hp]

/-- What taking the next ready event at thread `t` does. -/
structure Taken (E : EventState) (t : Tid) (p : Nat) (E' : EventState) : Prop where
  pool : E'.pool = E.pool
  content : SameContent E E'
  slot : ∀ t' d fd, E'.slot t' d fd = E.slot t' d fd
  watched : ∀ t' fd, E'.watched t' fd ↔ E.watched t' fd
  other : ∀ t', t' ≠ t → E'.readies t' = E.readies t'
  queue : E.readies t = p :: E'.readies t
  queued : ∀ q, (E'.ev q).queued = (decide (q ≠ p) && (E.ev q).queued)

theorem next_some
    (h : E.next t = some (p, E')) :
    Taken E t p E' := by
  unfold next at h
  split at h
  · cases h
  · rename_i p' base ev hnext
    cases h
    obtain ⟨hready, hslot, hepoll, hev⟩ := dispatchNext_some hnext
    refine ⟨rfl, ?_, ?_, ?_, ?_, ?_, ?_⟩
    · have hpart : ∀ q, ev q = E.ev q ∨ ev q = { E.ev q with queued := false } := by
        intro q
        rw [hev]
        by_cases hq : q = p
        · subst hq
          simp
        · simp [update_of_ne hq]
      constructor
      all_goals
        intro q
        rcases hpart q with hq | hq <;> simp only [hq]
    · intro t' d fd
      by_cases ht : t' = t
      · subst ht
        simpa [slot] using hslot d fd
      · simp [slot, update_of_ne ht]
    · intro t' fd
      by_cases ht : t' = t
      · subst ht
        simp [watched, hepoll]
      · simp [watched, update_of_ne ht]
    · intro t' ht
      simp [readies, update_of_ne ht]
    · simpa [readies] using hready
    · intro q
      dsimp only
      rw [hev]
      by_cases hq : q = p
      · subst hq
        simp
      · simp [hq]

theorem next_none
    (h : E.next t = none) :
    E.readies t = [] := by
  unfold next dispatchNext at h
  cases hq : (E.base t).event_readies with
  | nil => exact hq
  | cons p rest => simp [hq] at h

end EventState

end Ebot
