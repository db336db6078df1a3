import Ebot.InterestSet
import Ebot.Registry
import Ebot.SlabPool

/-!
# The balance of the event slabs

The master and the reactors as they share the event pool, in whole steps: the
start of a thread, and the callback of an event that is registered in its base.
The callbacks are put together from the pieces of `EventPool`; what they do
besides (pipes, packets, application callbacks) does not reach the pool and is
decided by the surroundings.

Every slab handed out is registered in exactly one place, and every place holds
one (`Balanced`).  A pipe callback that runs out of slabs halfway stays within
that balance, and so does the close path, which empties both places of a
connection.
-/

namespace Ebot

open Function EventState Transition

namespace SlabBalance

open InterestSet

/-- The event pool with the bases, and which threads have started. -/
structure State where
  events : EventState
  started : Tid → Bool

/-- What the surroundings decide in one callback. -/
structure Outcome where
  /-- No refusal by `epoll_ctl` in the part for a direction. -/
  ctl : Dir → Bool
  /-- What the read from the pipe gives. -/
  handed : Option Fd
  /-- The answer of `recv`. -/
  recv : RecvResult

/-- Whole steps. -/
inductive Act where
  /-- `reactor_pool_exec` before its loop, or `eb_srv_start`. -/
  | start (t : Tid) (ctl : Bool)
  /-- The callback of the event registered in a thread's base for a direction
  of a descriptor. -/
  | call (t : Tid) (d : Dir) (fd : Nat) (o : Outcome)

/-- One half of `reactor_pool_pipe_callback`, and whether it goes on. -/
def pipeCallbackHalf (E : EventState) (i : Nat) (fd : Fd) (d : Dir) (ctl : Bool) :
    Except Stop (Bool × EventState) := do
  let (o, E) ← E.getAdd (.reactor i) ctl (clientEvent d fd i)
  match o with
  | none => .ok (false, E)
  | some (p, ret) =>
      if ret < 0 then do
        let E ← E.put p
        .ok (true, E)
      else .ok (true, E)

/-- `reactor_pool_pipe_callback` after its read of `fd`. -/
def reactorPoolPipeCallback (E : EventState) (i : Nat) (fd : Fd) (ctl : Dir → Bool) :
    Except Stop EventState := do
  let (more, E) ← pipeCallbackHalf E i fd .read (ctl .read)
  if more then do
    let (_, E) ← pipeCallbackHalf E i fd .write (ctl .write)
    .ok E
  else .ok E

/-- `reactor_pool_client_read_callback`, as far as events go. -/
def clientReadCallback (E : EventState) (i : Nat) (fd : Fd) (r : RecvResult)
    (ctl : Dir → Bool) : Except Stop EventState :=
  if readn r = -2 then do
    let E ← E.delPut (.reactor i) (ctl .read) .read fd
    E.delPut (.reactor i) (ctl .write) .write fd
  else .ok E

/-- A callback with its arguments; `ebot_srv_accept` and
`reacto_pool_client_write_callback` touch no event. -/
def runCallback (E : EventState) (cb : Callback) (fd : Fd) (arg : Arg) (o : Outcome) :
    Except Stop EventState :=
  match cb, arg with
  | .reactor_pool_pipe_callback, .reactor i =>
      match o.handed with
      | none => .ok E
      | some fd => reactorPoolPipeCallback E i fd o.ctl
  | .reactor_pool_client_read_callback, .reactor i =>
      clientReadCallback E i fd o.recv o.ctl
  | _, _ => .ok E

/-- A thread before its loop. -/
def startThread (cfg : Cfg) (E : EventState) (t : Tid) (ctl : Bool) :
    Except Stop EventState := do
  let (o, E) ← E.getAdd t ctl (bootEvent cfg t)
  match o with
  | none => .error (bootNull t)
  | some (_, ret) => if ret < 0 then .error (bootAddFail cfg t) else .ok E

/-- The server before its threads start. -/
def init (cfg : Cfg) : State :=
  { events := (ebSrvNew cfg).events, started := fun _ => false }

/-- One whole step. -/
def step (cfg : Cfg) (s : State) : Act → Except Stop State
  | .start t ctl => do
      require (cfg.Runs t ∧ s.started t = false)
      let events ← startThread cfg s.events t ctl
      .ok { events, started := update s.started t true }
  | .call t d fd o => do
      require (cfg.Runs t)
      match s.events.slot t d fd with
      | none => .error .disabled
      | some p =>
          let e := s.events.ev p
          match e.callback with
          | none => .ok s
          | some cb => do
              let events ← runCallback s.events cb e.fd e.arg o
              .ok { s with events }

/-- The descriptor is below `wait_sz` and not registered in the thread's
base. -/
def NewTo (E : EventState) (t : Tid) (fd : Fd) : Prop :=
  (fd : Nat) < (E.base t).wait_sz ∧ ∀ d, E.slot t d fd = none

/-- `epoll_ctl` succeeds, descriptors are below `wait_sz`, and a descriptor is
not registered in its reactor when it is handed over. -/
def Undisturbed (cfg : Cfg) (s : State) : Act → Prop
  | .start t ctl =>
      ctl = true ∧ ((bootEvent cfg t).fd : Nat) < (s.events.base t).wait_sz
  | .call t _ _ o =>
      (∀ d, o.ctl d = true) ∧ ∀ fd ∈ o.handed, NewTo s.events t fd

instance (P : Dir → Prop) [DecidablePred P] : Decidable (∀ d, P d) :=
  decidable_of_iff (P .read ∧ P .write)
    ⟨fun h d => by
      cases d with
      | read => exact h.1
      | write => exact h.2,
    fun h => ⟨h .read, h .write⟩⟩

instance (E : EventState) (t : Tid) : DecidablePred (NewTo E t) := by
  intro fd
  dsimp only [NewTo]
  infer_instance

instance (cfg : Cfg) (s : State) : DecidablePred (Undisturbed cfg s)
  | .start t ctl =>
      inferInstanceAs (Decidable
        (ctl = true ∧ ((bootEvent cfg t).fd : Nat) < (s.events.base t).wait_sz))
  | .call t _ _ o =>
      -- not by trying all descriptors
      @instDecidableAnd _ _ inferInstance
        (Option.decidableForallMem (p := NewTo s.events t) o.handed)

/-- The threads of the server. -/
def threads (cfg : Cfg) : List Tid :=
  .master :: (List.range cfg.rsz).map .reactor

/-- The non-`NULL` entries of one wait table. -/
def tableEntries (E : EventState) (t : Tid) (d : Dir) : List Nat :=
  (List.range (E.base t).wait_sz).filterMap fun fd => E.slot t d fd

/-- The non-`NULL` entries of all wait tables. -/
def entries (cfg : Cfg) (E : EventState) : List Nat :=
  (threads cfg).flatMap fun t => tableEntries E t .read ++ tableEntries E t .write

/-! ## The balance -/

/-- The kinds a thread's base supports. -/
def threadKides : Tid → Kides
  | .master => ⟨true, false⟩
  | .reactor _ => ⟨true, true⟩

/-- The slabs handed out are those that are registered. -/
structure Balanced (cfg : Cfg) (E : EventState) (free busy : List Nat) : Prop where
  tables : Tables E
  pool : E.pool.Ordered free busy
  num : 2 ≤ E.pool.slab_num
  registered : ∀ p ∈ busy, ∃ t d fd, E.slot t d fd = some p
  handed : ∀ t d fd p, E.slot t d fd = some p → p ∈ busy
  inside : ∀ t d fd p, E.slot t d fd = some p →
    cfg.Runs t ∧ fd < (E.base t).wait_sz
  unqueued : ∀ p, (E.ev p).queued = false
  mirrors : ∀ t, Mirrors (E.base t)
  kides : ∀ t, (E.base t).kides = threadKides t

section Balance

variable {cfg : Cfg} {E E' : EventState} {free busy : List Nat} {t : Tid} {d : Dir}
variable {e : SrvEvent} {fd p : Nat}

theorem Balanced.busy_ne_nil
    (h : Balanced cfg E [] busy) :
    ∃ x rest, busy = x :: rest := by
  have hlen := h.pool.length
  have hnum := h.num
  cases busy with
  | nil =>
      simp only [List.length_nil] at hlen
      omega
  | cons x rest => exact ⟨x, rest, rfl⟩

/-- Taking a slab, filling in its event and adding it to an empty slot.  Either
no slab is left and nothing changes, or the add succeeds. -/
theorem Balanced.openEvent
    (h : Balanced cfg E free busy)
    (hrun : cfg.Runs t)
    (hd : e.IsFor d)
    (htid : e.arg.tid = t)
    (hunq : e.queued = false)
    (hsup : (E.base t).Supports e)
    (hlt : (e.fd : Nat) < (E.base t).wait_sz)
    (hempty : E.slot t d e.fd = none) :
    free = [] ∧ E.getAdd t true e = .ok (none, E) ∨
      ∃ x free' E', E.getAdd t true e = .ok (some (x, 0), E') ∧
        Balanced cfg E' free' (busy ++ [x]) ∧
        (∀ t', (E'.base t').wait_sz = (E.base t').wait_sz) ∧
        ∀ t' d' fd', E'.slot t' d' fd' =
          if t' = t ∧ d' = d ∧ fd' = e.fd then some x else E.slot t' d' fd' := by
  cases free with
  | nil =>
      obtain ⟨x, rest, rfl⟩ := h.busy_ne_nil
      refine .inl ⟨rfl, ?_⟩
      unfold getAdd
      rw [h.pool.get_none]
      rfl
  | cons x free =>
      right
      obtain ⟨pool, hget, hpool, hnum, -⟩ := h.pool.get_some h.num
      obtain ⟨base, hadd, hmirrors, hkides, hsize⟩ :=
        (h.mirrors t).add_returns (p := x) hd hsup hlt
      have hinit : eventInit E.ev x e = .ok (update E.ev x e) := by
        unfold eventInit
        rw [if_neg (by simp [h.unqueued x])]
      have hopen : E.getAdd t true e = .ok (some (x, 0),
          { pool, ev := update E.ev x e, base := update E.base t base }) := by
        unfold getAdd
        rw [hget]
        simp only [ok_bind, hinit, update_self, hadd]
      have hopened := getAdd_some hd hopen
      have hwait : ∀ t', (update E.base t base t').wait_sz = (E.base t').wait_sz :=
        (forall_update_iff E.base fun t' eb => eb.wait_sz = (E.base t').wait_sz).mpr
          ⟨hsize, fun _ _ => rfl⟩
      have hslot : ∀ t' d' fd',
          ({ pool, ev := update E.ev x e, base := update E.base t base } :
            EventState).slot t' d' fd' =
          if t' = t ∧ d' = d ∧ fd' = e.fd then some x else E.slot t' d' fd' := by
        intro t' d' fd'
        rw [hopened.slot]
        by_cases hc : t' = t ∧ d' = d ∧ fd' = e.fd
        · obtain ⟨rfl, rfl, rfl⟩ := hc
          simp [hempty]
        · rw [if_neg hc, if_neg fun hc' => hc ⟨hc'.2.1, hc'.2.2.1, hc'.2.2.2.1⟩]
      refine ⟨x, free, _, hopen, ⟨?_, hpool, hnum ▸ h.num, ?_, ?_, ?_, ?_, ?_, ?_⟩,
        hwait, hslot⟩
      · exact h.tables.opened hopened hd htid hunq
      · intro p hp
        rcases List.mem_append.mp hp with hp | hp
        · obtain ⟨t', d', fd', hold⟩ := h.registered p hp
          refine ⟨t', d', fd', ?_⟩
          rw [hslot, if_neg, hold]
          rintro ⟨rfl, rfl, rfl⟩
          rw [hempty] at hold
          cases hold
        · rw [List.mem_singleton] at hp
          subst hp
          exact ⟨t, d, e.fd, by rw [hslot, if_pos ⟨rfl, rfl, rfl⟩]⟩
      · intro t' d' fd' p hp
        rw [hslot] at hp
        split at hp
        · cases hp
          exact List.mem_append_right _ (by simp)
        · exact List.mem_append_left _ (h.handed t' d' fd' p hp)
      · intro t' d' fd' p hp
        rw [hslot] at hp
        dsimp only
        rw [hwait]
        split at hp
        · rename_i hc
          obtain ⟨rfl, rfl, rfl⟩ := hc
          exact ⟨hrun, hlt⟩
        · exact h.inside t' d' fd' p hp
      · intro p
        dsimp only
        by_cases hp : p = x
        · subst hp
          rw [update_self, hunq]
        · rw [update_of_ne hp, h.unqueued]
      · exact (forall_update_iff E.base fun _ => Mirrors).mpr
          ⟨hmirrors, fun t' _ => h.mirrors t'⟩
      · exact (forall_update_iff E.base fun t' eb => eb.kides = threadKides t').mpr
          ⟨hkides.trans (h.kides t), fun t' _ => h.kides t'⟩

/-- Removing what is registered for a direction of a descriptor and putting its
slab back. -/
theorem Balanced.closeEvent
    (h : Balanced cfg E free busy)
    (hlt : fd < (E.base t).wait_sz) :
    ∃ free' busy' E', E.delPut t true d fd = .ok E' ∧
      Balanced cfg E' free' busy' ∧
      (∀ t', (E'.base t').wait_sz = (E.base t').wait_sz) ∧
      ∀ t' d' fd', E'.slot t' d' fd' =
        if t' = t ∧ d' = d ∧ fd' = fd then none else E.slot t' d' fd' := by
  have hcovers : (E.base t).Covers fd := (h.mirrors t).whole.covers hlt
  have hget : ((E.base t).waits d).get fd = .ok (E.slot t d fd) := by
    cases d with
    | read => exact hcovers.read.peek
    | write => exact hcovers.write.peek
  cases hslot : E.slot t d fd with
  | none =>
      refine ⟨free, busy, E, ?_, h, fun _ => rfl, fun t' d' fd' => ?_⟩
      · unfold delPut
        rw [hget, hslot]
        rfl
      · split
        · rename_i hc
          obtain ⟨rfl, rfl, rfl⟩ := hc
          exact hslot
        · rfl
  | some p =>
      have hfor := h.tables.isFor t d fd p hslot
      have hfd := h.tables.fd t d fd p hslot
      have hthere : (E.base t).slot d (E.ev p).fd ≠ none := by
        rw [hfd]
        change E.slot t d fd ≠ none
        simp [hslot]
      obtain ⟨base, hdel, hmirrors, hkides, hsize⟩ :=
        (h.mirrors t).del_returns hfor (hfd.symm ▸ hlt) hthere
      obtain ⟨b₁, b₂, rfl⟩ := List.append_of_mem (h.handed t d fd p hslot)
      obtain ⟨pool, hput, hpool, hnum, -⟩ := h.pool.put_busy
      have hclose : E.delPut t true d fd =
          .ok { E with pool, base := update E.base t base } := by
        unfold delPut
        rw [hget, hslot]
        simp only [ok_bind, hdel]
        unfold EventState.put
        rw [hput]
        rfl
      have hclosed : Closed E t p true { E with pool, base := update E.base t base } := by
        rcases delPut_cases hclose with ⟨hnone, -⟩ | ⟨p', granted, hp', hcl, hgranted⟩
        · rw [hslot] at hnone
          cases hnone
        · rw [hslot] at hp'
          cases hp'
          have hwatched : E.watched t (E.ev p).fd := by
            rw [hfd]
            exact h.tables.watched t d fd (by simp [hslot])
          exact hgranted rfl hwatched ▸ hcl
      have hwait : ∀ t', (update E.base t base t').wait_sz = (E.base t').wait_sz :=
        (forall_update_iff E.base fun t' eb => eb.wait_sz = (E.base t').wait_sz).mpr
          ⟨hsize, fun _ _ => rfl⟩
      have hslots : ∀ t' d' fd',
          ({ E with pool, base := update E.base t base } : EventState).slot t' d' fd' =
          if t' = t ∧ d' = d ∧ fd' = fd then none else E.slot t' d' fd' := by
        intro t' d' fd'
        by_cases ht : t' = t
        · subst ht
          rw [hclosed.slot d hfor, hfd]
          simp
        · rw [hclosed.other t' ht, if_neg fun hc => ht hc.1]
      have hother : ∀ {t' d' fd' q}, E.slot t' d' fd' = some q → q ≠ p →
          ¬ (t' = t ∧ d' = d ∧ fd' = fd) := by
        rintro t' d' fd' q hq hne ⟨rfl, rfl, rfl⟩
        rw [hslot] at hq
        cases hq
        exact hne rfl
      have hnodup : p ∉ b₁ ++ b₂ :=
        (List.nodup_cons.mp (List.nodup_middle.mp
          (List.nodup_append.mp h.pool.orders.nodup).2.1)).1
      refine ⟨p :: free, b₁ ++ b₂, _, hclose,
        ⟨h.tables.closed hslot hclosed, hpool, hnum ▸ h.num, ?_, ?_, ?_, h.unqueued,
          ?_, ?_⟩, hwait, hslots⟩
      · intro q hq
        have hq' : q ∈ b₁ ++ p :: b₂ :=
          (List.Sublist.append_left (List.sublist_cons_self p b₂) b₁).subset hq
        obtain ⟨t', d', fd', hold⟩ := h.registered q hq'
        refine ⟨t', d', fd', ?_⟩
        rw [hslots, if_neg (hother hold fun he => hnodup (he ▸ hq)), hold]
      · intro t' d' fd' q hq
        have hold := hclosed.subset t' d' fd' q hq
        have hne : q ≠ p := by
          rintro rfl
          obtain ⟨rfl, rfl, rfl⟩ := h.tables.slot_injective hslot hold
          rw [hslots, if_pos ⟨rfl, rfl, rfl⟩] at hq
          cases hq
        rcases List.mem_append.mp (h.handed t' d' fd' q hold) with hin | hin
        · exact List.mem_append_left _ hin
        · exact List.mem_append_right _ (List.mem_of_ne_of_mem hne hin)
      · intro t' d' fd' q hq
        dsimp only
        rw [hwait]
        exact h.inside t' d' fd' q (hclosed.subset t' d' fd' q hq)
      · exact (forall_update_iff E.base fun _ => Mirrors).mpr
          ⟨hmirrors, fun t' _ => h.mirrors t'⟩
      · exact (forall_update_iff E.base fun t' eb => eb.kides = threadKides t').mpr
          ⟨hkides.trans (h.kides t), fun t' _ => h.kides t'⟩

end Balance

/-! ## Whole steps -/

/-- What a step of the thread `t` keeps. -/
structure Keeps (cfg : Cfg) (E : EventState) (t : Tid) (E' : EventState) : Prop where
  balanced : ∃ free busy, Balanced cfg E' free busy
  other : ∀ t', t' ≠ t → ∀ d fd, E'.slot t' d fd = E.slot t' d fd
  size : ∀ t', (E'.base t').wait_sz = (E.base t').wait_sz

/-- Between steps: the balance holds, and a thread that has not started has
registered nothing. -/
structure Good (cfg : Cfg) (s : State) : Prop where
  balanced : ∃ free busy, Balanced cfg s.events free busy
  fresh : ∀ t, s.started t = false → ∀ d fd, s.events.slot t d fd = none

section Steps

variable {cfg : Cfg} {E E' E₁ : EventState} {free busy : List Nat} {t : Tid} {d : Dir}
variable {s s' : State} {i : Nat} {fd : Fd} {ctl : Dir → Bool} {a : Act} {o : Outcome}

theorem Keeps.refl
    (h : Balanced cfg E free busy) :
    Keeps cfg E t E where
  balanced := ⟨free, busy, h⟩
  other := fun _ _ _ _ => rfl
  size := fun _ => rfl

theorem Keeps.trans
    (h : Keeps cfg E t E₁)
    (h' : Keeps cfg E₁ t E') :
    Keeps cfg E t E' where
  balanced := h'.balanced
  other := fun t' ht d fd => (h'.other t' ht d fd).trans (h.other t' ht d fd)
  size := fun t' => (h'.size t').trans (h.size t')

/-- One half of the pipe callback. -/
theorem Balanced.pipeCallbackHalf
    (h : Balanced cfg E free busy)
    (hi : i < cfg.rsz)
    (hlt : (fd : Nat) < (E.base (.reactor i)).wait_sz)
    (hempty : E.slot (.reactor i) d fd = none) :
    ∃ more E', SlabBalance.pipeCallbackHalf E i fd d true = .ok (more, E') ∧
      Keeps cfg E (.reactor i) E' ∧
      E'.slot (.reactor i) d.other fd = E.slot (.reactor i) d.other fd := by
  have hsup : (E.base (.reactor i)).Supports (clientEvent d fd i) := by
    unfold EbotBase.Supports
    rw [h.kides]
    cases d with
    | read => exact .inl ⟨rfl, rfl⟩
    | write => exact .inr ⟨rfl, rfl⟩
  have hrun : cfg.Runs (.reactor i) := hi
  have htid : (clientEvent d fd i).arg.tid = .reactor i := rfl
  unfold SlabBalance.pipeCallbackHalf
  rcases h.openEvent hrun clientEvent_isFor htid rfl hsup hlt hempty with
    ⟨-, hget⟩ | ⟨x, free', E', hget, hbal, hsize, hslot⟩
  · rw [hget]
    exact ⟨false, E, rfl, .refl h, rfl⟩
  · rw [hget]
    refine ⟨true, E', rfl, ⟨⟨_, _, hbal⟩, ?_, hsize⟩, ?_⟩
    · intro t' ht d' fd'
      rw [hslot, if_neg fun hc => ht hc.1]
    · rw [hslot, if_neg fun hc => d.other_ne hc.2.1]

/-- The pipe callback, wherever it runs out of slabs. -/
theorem Balanced.pipeCallback
    (h : Balanced cfg E free busy)
    (hi : i < cfg.rsz)
    (hctl : ∀ d, ctl d = true)
    (hlt : (fd : Nat) < (E.base (.reactor i)).wait_sz)
    (hempty : ∀ d, E.slot (.reactor i) d fd = none) :
    ∃ E', reactorPoolPipeCallback E i fd ctl = .ok E' ∧
      Keeps cfg E (.reactor i) E' := by
  obtain ⟨more, E₁, hread, hkeep, hwrite⟩ := h.pipeCallbackHalf hi hlt (hempty .read)
  unfold reactorPoolPipeCallback
  rw [hctl, hctl, hread]
  simp only [ok_bind]
  cases more with
  | false => exact ⟨E₁, rfl, hkeep⟩
  | true =>
      obtain ⟨free₁, busy₁, hbal₁⟩ := hkeep.balanced
      have hempty₁ : E₁.slot (.reactor i) .write fd = none := hwrite.trans (hempty .write)
      have hlt₁ : (fd : Nat) < (E₁.base (.reactor i)).wait_sz := hkeep.size _ ▸ hlt
      obtain ⟨more', E', hwrite', hkeep', -⟩ := hbal₁.pipeCallbackHalf hi hlt₁ hempty₁
      refine ⟨E', ?_, hkeep.trans hkeep'⟩
      rw [if_pos rfl, hwrite']
      rfl

/-- The read callback: the close path gives back what it finds registered. -/
theorem Balanced.readCallback
    {r : RecvResult}
    (h : Balanced cfg E free busy)
    (hctl : ∀ d, ctl d = true)
    (hlt : (fd : Nat) < (E.base (.reactor i)).wait_sz) :
    ∃ E', clientReadCallback E i fd r ctl = .ok E' ∧ Keeps cfg E (.reactor i) E' := by
  unfold clientReadCallback
  split
  · rw [hctl, hctl]
    obtain ⟨free₁, busy₁, E₁, hread, hbal₁, hsize₁, hslot₁⟩ :=
      h.closeEvent (t := .reactor i) (d := .read) hlt
    have hlt₁ : (fd : Nat) < (E₁.base (.reactor i)).wait_sz := hsize₁ _ ▸ hlt
    obtain ⟨free₂, busy₂, E₂, hwrite, hbal₂, hsize₂, hslot₂⟩ :=
      hbal₁.closeEvent (t := .reactor i) (d := .write) hlt₁
    rw [hread]
    refine ⟨E₂, hwrite, ⟨⟨_, _, hbal₂⟩, ?_, fun t' => (hsize₂ t').trans (hsize₁ t')⟩⟩
    intro t' ht d' fd'
    rw [hslot₂, if_neg fun hc => ht hc.1, hslot₁, if_neg fun hc => ht hc.1]
  · exact ⟨E, rfl, .refl h⟩

/-- The callback of a registered event. -/
theorem Balanced.runCallback
    {n p : Nat}
    (h : Balanced cfg E free busy)
    (cb : Callback)
    (hslot : E.slot t d n = some p)
    (hctl : ∀ d, o.ctl d = true)
    (hhanded : ∀ fd ∈ o.handed, NewTo E t fd) :
    ∃ E', SlabBalance.runCallback E cb (E.ev p).fd (E.ev p).arg o = .ok E' ∧
      Keeps cfg E t E' := by
  have htid := h.tables.tid t d n p hslot
  have hfd := h.tables.fd t d n p hslot
  obtain ⟨hrun, hn⟩ := h.inside t d n p hslot
  cases harg : (E.ev p).arg with
  | srv => cases cb <;> exact ⟨E, rfl, .refl h⟩
  | reactor i =>
      rw [harg] at htid
      obtain rfl : Tid.reactor i = t := htid
      cases cb with
      | ebot_srv_accept => exact ⟨E, rfl, .refl h⟩
      | reacto_pool_client_write_callback => exact ⟨E, rfl, .refl h⟩
      | reactor_pool_pipe_callback =>
          cases ho : o.handed with
          | none =>
              refine ⟨E, ?_, .refl h⟩
              unfold SlabBalance.runCallback
              rw [ho]
          | some fd =>
              obtain ⟨hlt, hempty⟩ := hhanded fd ho
              obtain ⟨E', hcall, hkeep⟩ := h.pipeCallback hrun hctl hlt hempty
              refine ⟨E', ?_, hkeep⟩
              unfold SlabBalance.runCallback
              rw [ho]
              exact hcall
      | reactor_pool_client_read_callback =>
          exact h.readCallback hctl (hfd.symm ▸ hn)

/-- Where it does not abort, the start of a thread registers its event. -/
theorem Balanced.startThread
    (h : Balanced cfg E free busy)
    (hrun : cfg.Runs t)
    (hlt : ((bootEvent cfg t).fd : Nat) < (E.base t).wait_sz)
    (hempty : ∀ d fd, E.slot t d fd = none)
    (hstart : SlabBalance.startThread cfg E t true = .ok E') :
    Keeps cfg E t E' := by
  have hsup : (E.base t).Supports (bootEvent cfg t) := by
    unfold EbotBase.Supports
    rw [h.kides]
    cases t with
    | master => exact .inl ⟨rfl, rfl⟩
    | reactor i => exact .inl ⟨rfl, rfl⟩
  unfold SlabBalance.startThread at hstart
  rcases h.openEvent hrun bootEvent_isFor bootEvent_tid bootEvent_unqueued hsup hlt
    (hempty _ _) with ⟨-, hget⟩ | ⟨x, free', E₁, hget, hbal, hsize, hslot⟩
  · rw [hget] at hstart
    cases hstart
  · rw [hget] at hstart
    cases hstart
    refine ⟨⟨_, _, hbal⟩, ?_, hsize⟩
    intro t' ht d' fd'
    rw [hslot, if_neg fun hc => ht hc.1]

theorem good_init
    (hpsz : 2 ≤ cfg.psz) :
    Good cfg (init cfg) := by
  have hslot : ∀ t d fd, (init cfg).events.slot t d fd = none := by
    intro t d fd
    cases t <;> cases d <;> rfl
  have hnew := (mpoolNew_ordered sizeofEvent (by omega : 1 ≤ cfg.psz)).1
  refine ⟨⟨_, _, tables_ebSrvNew, hnew, ?_, ?_, ?_, ?_, fun _ => rfl, ?_, ?_⟩,
    fun t _ => hslot t⟩
  · have hnum := hnew.length
    simp only [List.length_reverse, List.length_range, List.length_nil] at hnum
    change 2 ≤ (mpoolNew cfg.psz sizeofEvent).slab_num
    omega
  · simp
  · intro t d fd p hp
    rw [hslot] at hp
    cases hp
  · intro t d fd p hp
    rw [hslot] at hp
    cases hp
  · intro t
    cases t with
    | master => exact mirrors_ebotNew ⟨true, false⟩
    | reactor i => exact mirrors_ebotNew ⟨true, true⟩
  · intro t
    cases t <;> rfl

/-- The thread `t` has started, and its step kept what it must. -/
theorem Good.keep
    {started : Tid → Bool}
    (h : Good cfg s)
    (hkeep : Keeps cfg s.events t E')
    (hstarted : started t = true)
    (hother : ∀ t', t' ≠ t → started t' = s.started t') :
    Good cfg ⟨E', started⟩ := by
  refine ⟨hkeep.balanced, fun t' ht' d' fd' => ?_⟩
  by_cases ht : t' = t
  · subst ht
    exact absurd (hstarted.symm.trans ht') (by simp)
  · replace ht' : s.started t' = false := (hother t' ht).symm.trans ht'
    exact (hkeep.other t' ht d' fd').trans (h.fresh t' ht' d' fd')

/-- One whole step. -/
theorem Good.step
    (h : Good cfg s)
    (hundisturbed : Undisturbed cfg s a)
    (hstep : step cfg s a = .ok s') :
    Good cfg s' := by
  obtain ⟨free, busy, hbal⟩ := h.balanced
  cases a with
  | start t ctl =>
      obtain ⟨rfl, hlt⟩ := hundisturbed
      simp only [SlabBalance.step] at hstep
      obtain ⟨_, hreq, hstep⟩ := bind_eq_ok.mp hstep
      rw [require_eq_ok] at hreq
      obtain ⟨E', hstart, hstep⟩ := bind_eq_ok.mp hstep
      cases hstep
      have hkeep := hbal.startThread hreq.1 hlt (h.fresh t hreq.2) hstart
      exact h.keep hkeep (update_self _ _ _) fun t' ht => update_of_ne ht _ _
  | call t d fd o =>
      obtain ⟨hctl, hhanded⟩ := hundisturbed
      simp only [SlabBalance.step] at hstep
      obtain ⟨_, -, hstep⟩ := bind_eq_ok.mp hstep
      cases hslot : s.events.slot t d fd with
      | none =>
          rw [hslot] at hstep
          cases hstep
      | some p =>
          rw [hslot] at hstep
          dsimp only at hstep
          split at hstep
          · cases hstep
            exact h
          · rename_i cb hcb
            obtain ⟨E', hcall, hkeep⟩ := hbal.runCallback cb hslot hctl hhanded
            rw [hcall] at hstep
            cases hstep
            have hstarted : s.started t = true := by
              by_contra hnot
              have hnone := h.fresh t (by simpa using hnot) d fd
              rw [hslot] at hnone
              cases hnone
            exact h.keep hkeep hstarted fun _ _ => rfl

/-- The callback of a registered event always returns. -/
theorem Good.call_returns
    {n : Nat}
    (h : Good cfg s)
    (hundisturbed : Undisturbed cfg s (.call t d n o))
    (hslot : s.events.slot t d n ≠ none) :
    ∃ s', SlabBalance.step cfg s (.call t d n o) = .ok s' := by
  obtain ⟨free, busy, hbal⟩ := h.balanced
  obtain ⟨hctl, hhanded⟩ := hundisturbed
  obtain ⟨p, hp⟩ := Option.ne_none_iff_exists'.mp hslot
  have hrun := (hbal.inside t d n p hp).1
  have hreq : require (cfg.Runs t) = .ok () := require_eq_ok.mpr hrun
  simp only [SlabBalance.step, hreq, ok_bind, hp]
  cases hcb : (s.events.ev p).callback with
  | none => exact ⟨s, rfl⟩
  | some cb =>
      obtain ⟨E', hcall, -⟩ := hbal.runCallback cb hp hctl hhanded
      dsimp only
      rw [hcall]
      exact ⟨_, rfl⟩

end Steps

/-! ## Whole steps and the steps of the server

Each of the callbacks above is what the thread that runs it does in `Server`
when no other thread comes in between. -/

section Server

variable {cfg : Cfg} {s s₁ : Server} {t : Tid} {i : Nat} {fd : Fd} {d : Dir}
variable {E' E₁ : EventState} {ctl : Dir → Bool} {pc pc₁ : Pc} {c : Bool}

/-- Some steps of the thread alone lead to these events and there. -/
def Performs (cfg : Cfg) (s : Server) (t : Tid) (E' : EventState) (pc : Pc) : Prop :=
  ∃ as s', (∀ a ∈ as, a.thread = some t) ∧ run (Ebot.step cfg) s as = .ok s' ∧
    s'.events = E' ∧ s'.pc t = pc

/-- The surroundings of one step. -/
def surroundings (ctl : Bool) (r : RecvResult) : Env := ⟨ctl, none, true, r⟩

theorem Performs.here
    (hevents : s.events = E')
    (hpc : s.pc t = pc) :
    Performs cfg s t E' pc :=
  ⟨[], s, by simp, rfl, hevents, hpc⟩

theorem Performs.step
    {env : Env}
    (hrun : cfg.Runs t)
    (hstep : runThread cfg s t env = .ok s₁)
    (h : Performs cfg s₁ t E' pc) :
    Performs cfg s t E' pc := by
  obtain ⟨as, s', hthread, hruns, hend⟩ := h
  have hreq : require (cfg.Runs t) = .ok () := require_eq_ok.mpr hrun
  refine ⟨.run t env :: as, s', ?_, ?_, hend⟩
  · intro a ha
    rcases List.mem_cons.mp ha with rfl | ha
    · rfl
    · exact hthread a ha
  · simp only [run, Ebot.step, hreq, ok_bind, hstep]
    exact hruns

theorem Performs.trans
    (h : Performs cfg s t E₁ pc₁)
    (h' : ∀ s₁ : Server, s₁.events = E₁ → s₁.pc t = pc₁ → Performs cfg s₁ t E' pc) :
    Performs cfg s t E' pc := by
  obtain ⟨as, s₁, hthread, hrun, hevents, hpc⟩ := h
  obtain ⟨as', s', hthread', hrun', hend⟩ := h' s₁ hevents hpc
  refine ⟨as ++ as', s', ?_, run_append hrun hrun', hend⟩
  intro a ha
  rcases List.mem_append.mp ha with ha | ha
  · exact hthread a ha
  · exact hthread' a ha

/-- Half a pipe callback: from the get of a direction on. -/
theorem performs_pipeCallbackHalf
    {more : Bool}
    (hrun : cfg.Runs t)
    (hpc : s.pc t = .opening d i fd)
    (h : pipeCallbackHalf s.events i fd d c = .ok (more, E')) :
    Performs cfg s t E' (if more then .opened i fd d else .dispatch) := by
  have hstep : runThread cfg s t (surroundings c .wouldBlock) =
      pipeCallbackOpen s t d i fd c := by
    unfold runThread
    rw [hpc]
    rfl
  unfold pipeCallbackHalf at h
  unfold pipeCallbackOpen at hstep
  obtain ⟨⟨o, E₁⟩, hget, h⟩ := bind_eq_ok.mp h
  rw [hget] at hstep
  simp only [ok_bind] at hstep
  cases o with
  | none =>
      cases h
      exact .step hrun hstep (.here rfl Server.goto_pc_self)
  | some o =>
      obtain ⟨p, ret⟩ := o
      dsimp only at h hstep
      by_cases hret : ret < 0
      · rw [if_pos hret] at h hstep
        obtain ⟨E₂, hput, h⟩ := bind_eq_ok.mp h
        cases h
        have hundo : runThread cfg
            (({ s with events := E₁ } : Server).goto t (.undoing d i fd p)) t
            (surroundings c .wouldBlock) =
              .ok (({ ({ s with events := E₁ } : Server).goto t (.undoing d i fd p) with
                events := E' } : Server).goto t (.opened i fd d)) := by
          unfold runThread
          rw [Server.goto_pc_self]
          unfold pipeCallbackUndo
          simp only [Server.goto_events, hput, ok_bind]
        exact .step hrun hstep (.step hrun hundo (.here rfl Server.goto_pc_self))
      · rw [if_neg hret] at h hstep
        cases h
        exact .step hrun hstep (.here rfl Server.goto_pc_self)

/-- The pipe callback, after its read of the pipe. -/
theorem performs_pipeCallback
    (hrun : cfg.Runs t)
    (hpc : s.pc t = .opening .read i fd)
    (h : reactorPoolPipeCallback s.events i fd ctl = .ok E') :
    Performs cfg s t E' .dispatch := by
  unfold reactorPoolPipeCallback at h
  obtain ⟨⟨more, E₁⟩, hread, h⟩ := bind_eq_ok.mp h
  have hfirst := performs_pipeCallbackHalf hrun hpc hread
  cases more with
  | false =>
      cases h
      exact hfirst
  | true =>
      dsimp only at h
      rw [if_pos rfl] at h
      obtain ⟨⟨more', E₂⟩, hwrite, h⟩ := bind_eq_ok.mp h
      cases h
      refine hfirst.trans fun s₁ hevents hpc₁ => ?_
      have hsecond := performs_pipeCallbackHalf hrun hpc₁ (hevents.symm ▸ hwrite)
      cases more' with
      | false => exact hsecond
      | true => exact hsecond

/-- Half of the close path. -/
theorem performs_delPut
    (hrun : cfg.Runs t)
    (hpc : s.pc t = .closing d i fd)
    (h : s.events.delPut (.reactor i) c d fd = .ok E') :
    Performs cfg s t E' (.closed i fd d) := by
  have hstep : runThread cfg s t (surroundings c .wouldBlock) =
      .ok (({ s with events := E' } : Server).goto t (.closed i fd d)) := by
    unfold runThread
    rw [hpc]
    unfold clientReadClose
    simp only [surroundings, h, ok_bind]
  exact .step hrun hstep (.here rfl Server.goto_pc_self)

/-- The read callback, as far as it touches events. -/
theorem performs_readCallback
    {r : RecvResult}
    (hrun : cfg.Runs t)
    (hpc : s.pc t = .recv i fd)
    (h : clientReadCallback s.events i fd r ctl = .ok E') :
    Performs cfg s t E'
      (if readn r = -2 then .closed i fd .write else .received i fd r) := by
  have hstep : runThread cfg s t (surroundings true r) =
      .ok ((s.note [.received fd (readn r) (packed fd r)]).goto t (.received i fd r)) := by
    unfold runThread
    rw [hpc]
    rfl
  refine .step hrun hstep ?_
  unfold clientReadCallback at h
  split at h
  · rename_i hclose
    have hpc₁ : Pc.received i fd r = .closing .read i fd := if_pos hclose
    obtain ⟨E₁, hread, hwrite⟩ := bind_eq_ok.mp h
    rw [if_pos hclose, hpc₁]
    have hfirst : Performs cfg
        ((s.note [.received fd (readn r) (packed fd r)]).goto t (.closing .read i fd)) t E₁
        (.closing .write i fd) :=
      performs_delPut hrun Server.goto_pc_self hread
    refine hfirst.trans fun s₁ hevents hpc₂ => ?_
    rw [← hevents] at hwrite
    exact performs_delPut hrun hpc₂ hwrite
  · rename_i hopen
    cases h
    rw [if_neg hopen]
    exact .here rfl Server.goto_pc_self

/-- The start of a thread. -/
theorem performs_startThread
    (hrun : cfg.Runs t)
    (hpc : s.pc t = .boot)
    (h : startThread cfg s.events t c = .ok E') :
    Performs cfg s t E' .idle := by
  have hstep : runThread cfg s t (surroundings c .wouldBlock) =
      .ok (({ s with events := E' } : Server).goto t .idle) := by
    unfold startThread at h
    unfold runThread
    rw [hpc]
    unfold reactorPoolExec
    obtain ⟨⟨o, E₁⟩, hget, h⟩ := bind_eq_ok.mp h
    simp only [surroundings, hget, ok_bind]
    cases o with
    | none => cases h
    | some o =>
        obtain ⟨p, ret⟩ := o
        dsimp only at h ⊢
        by_cases hret : ret < 0
        · rw [if_pos hret] at h
          cases h
        · rw [if_neg hret] at h ⊢
          cases h
          rfl
  exact .step hrun hstep (.here rfl Server.goto_pc_self)

end Server

/-! ## Counting -/

section Entries

variable {cfg : Cfg} {E : EventState} {free busy : List Nat} {t : Tid} {d : Dir} {p : Nat}

theorem mem_tableEntries :
    p ∈ tableEntries E t d ↔ ∃ fd, fd < (E.base t).wait_sz ∧ E.slot t d fd = some p := by
  unfold tableEntries
  simp only [List.mem_filterMap, List.mem_range]

theorem mem_threads :
    t ∈ threads cfg ↔ cfg.Runs t := by
  unfold threads
  cases t with
  | master => simp [Cfg.Runs]
  | reactor i => simp [Cfg.Runs]

theorem nodup_threads : (threads cfg).Nodup := by
  refine List.nodup_cons.mpr ⟨by simp, List.Nodup.map ?_ List.nodup_range⟩
  intro i j hij
  cases hij
  rfl

theorem Balanced.mem_entries
    (h : Balanced cfg E free busy) :
    p ∈ entries cfg E ↔ p ∈ busy := by
  unfold entries
  simp only [List.mem_flatMap, List.mem_append, mem_tableEntries, mem_threads]
  constructor
  · rintro ⟨t, -, ⟨fd, -, hslot⟩ | ⟨fd, -, hslot⟩⟩
    · exact h.handed t .read fd p hslot
    · exact h.handed t .write fd p hslot
  · intro hp
    obtain ⟨t, d, fd, hslot⟩ := h.registered p hp
    obtain ⟨hrun, hlt⟩ := h.inside t d fd p hslot
    refine ⟨t, hrun, ?_⟩
    cases d with
    | read => exact .inl ⟨fd, hlt, hslot⟩
    | write => exact .inr ⟨fd, hlt, hslot⟩

/-- An event is in one table, and there once. -/
theorem Balanced.nodup_entries
    (h : Balanced cfg E free busy) :
    (entries cfg E).Nodup := by
  have htable : ∀ t d, (tableEntries E t d).Nodup := by
    intro t d
    refine List.Nodup.filterMap ?_ List.nodup_range
    intro fd fd' p hp hp'
    exact (h.tables.slot_injective hp hp').2.2.symm
  have hdisjoint : ∀ t d t' d', (t ≠ t' ∨ d ≠ d') →
      List.Disjoint (tableEntries E t d) (tableEntries E t' d') := by
    intro t d t' d' hne p hp hp'
    obtain ⟨fd, -, hslot⟩ := mem_tableEntries.mp hp
    obtain ⟨fd', -, hslot'⟩ := mem_tableEntries.mp hp'
    obtain ⟨ht, hd, -⟩ := h.tables.slot_injective hslot' hslot
    rcases hne with hne | hne
    · exact hne ht
    · exact hne hd
  refine List.nodup_flatMap.mpr ⟨fun t _ => ?_, ?_⟩
  · exact (htable t .read).append (htable t .write) (hdisjoint _ _ _ _ (.inr (by simp)))
  · refine nodup_threads.imp ?_
    intro t t' hne
    refine List.disjoint_append_left.mpr ⟨?_, ?_⟩
    all_goals
      refine List.disjoint_append_right.mpr ⟨?_, ?_⟩
      all_goals exact hdisjoint _ _ _ _ (.inl hne)

theorem Balanced.length_entries
    (h : Balanced cfg E free busy) :
    E.pool.slab_used = (entries cfg E).length := by
  have hbusy : busy.Nodup := (List.nodup_append.mp h.pool.orders.nodup).2.1
  have hperm : (entries cfg E).Perm busy :=
    (List.perm_ext_iff_of_nodup h.nodup_entries hbusy).mpr fun p => h.mem_entries
  rw [h.pool.count, hperm.length_eq]

end Entries

/-- In every run of whole steps over a pool of at least two slabs: the number of
slabs handed out is the number of entries in all wait tables, no slab is entered
twice, and the callback of a registered event returns. -/
theorem event_slabs_conserved
    (cfg : Cfg)
    (hpsz : 2 ≤ cfg.psz)
    (s : State)
    (hreach : Reach (step cfg) (Undisturbed cfg) (init cfg) s) :
    s.events.pool.slab_used = (entries cfg s.events).length ∧
      (entries cfg s.events).Nodup ∧
      ∀ t d fd o, s.events.slot t d fd ≠ none → Undisturbed cfg s (.call t d fd o) →
        ∃ s', step cfg s (.call t d fd o) = .ok s' := by
  have hgood : Good cfg s :=
    hreach.invariant (good_init hpsz) fun _ _ _ h hu hs => h.step hu hs
  obtain ⟨free, busy, hbal⟩ := hgood.balanced
  refine ⟨hbal.length_entries, hbal.nodup_entries, ?_⟩
  intro t d fd o hslot hundisturbed
  exact hgood.call_returns hundisturbed hslot

/-- The callback of the pipe's event of reactor 0, which reads the
descriptor 7. -/
def takeSeven : Act :=
  .call (.reactor 0) .read 4 ⟨fun _ => true, some 7, .wouldBlock⟩

/-- The callback of the read event of 7, which finds it closed. -/
def closeSeven : Act :=
  .call (.reactor 0) .read 7 ⟨fun _ => true, none, .shutdown⟩

/-- Four slabs are handed out, and the connection 7 is registered. -/
def sevenRegistered (s : State) : Bool :=
  decide (s.events.pool.slab_used = 4) &&
    (s.events.slot (.reactor 0) .read 7).isSome

/-- Two are, for the events of the threads. -/
def sevenGone (s : State) : Bool :=
  decide (s.events.pool.slab_used = 2) &&
    (s.events.slot (.reactor 0) .read 7).isNone

/-- Both threads of a small server start, a connection is registered, and closed
again. -/
theorem event_slabs_conserved_one_client :
    (∃ s, Reach (step Small.cfg) (Undisturbed Small.cfg) (init Small.cfg) s ∧
      sevenRegistered s = true ∧
      s.events.pool.slab_used = (entries Small.cfg s.events).length) ∧
    ∃ s, Reach (step Small.cfg) (Undisturbed Small.cfg) (init Small.cfg) s ∧
      sevenGone s = true ∧
      s.events.pool.slab_used = (entries Small.cfg s.events).length := by
  have hpsz : 2 ≤ Small.cfg.psz := by decide
  constructor
  · obtain ⟨s, hreach, hcheck⟩ := reach_of_endsIn (step Small.cfg)
      (Undisturbed Small.cfg) (init Small.cfg) .disabled
      [.start .master true, .start (.reactor 0) true, takeSeven]
      sevenRegistered (by decide +kernel)
    exact ⟨s, hreach, hcheck, (event_slabs_conserved Small.cfg hpsz s hreach).1⟩
  · obtain ⟨s, hreach, hcheck⟩ := reach_of_endsIn (step Small.cfg)
      (Undisturbed Small.cfg) (init Small.cfg) .disabled
      [.start .master true, .start (.reactor 0) true, takeSeven, closeSeven]
      sevenGone (by decide +kernel)
    exact ⟨s, hreach, hcheck, (event_slabs_conserved Small.cfg hpsz s hreach).1⟩

end SlabBalance

/-! ## The pool `eb_srv_new` asks for -/

section PoolSize

open SlabPool

/-- **Null links.**  Of the pools `eb_srv_new` can ask for, whatever the setting
`memory_pool_size`, exactly those of one slab follow a `NULL` link in some
history. -/
theorem event_pool_null_free_iff
    (memory_pool_size : Int)
    (hsize : Words.InInt memory_pool_size) :
    NullFree (orFour memory_pool_size) sizeofEvent ↔ memory_pool_size ≠ 1 := by
  obtain ⟨-, hhi⟩ := hsize
  have hpos : 1 ≤ orFour memory_pool_size := orFour_pos memory_pool_size
  have hbound : orFour memory_pool_size ≤ 2147483647 := by
    unfold orFour
    split <;> omega
  have htotal : orFour memory_pool_size * (sizeofMslab + sizeofEvent) + sizeofMpool <
      2 ^ 64 := by
    unfold sizeofMslab sizeofEvent sizeofMpool
    omega
  rw [nullFree_iff hpos (by decide) htotal]
  unfold orFour
  split <;> omega

/-- The pool of the default settings. -/
theorem event_pool_null_free_iff_default :
    NullFree (orFour (1024 * 4)) sizeofEvent ↔ (1024 * 4 : Int) ≠ 1 :=
  event_pool_null_free_iff (1024 * 4) (by decide)

/-- The first get from a pool of one slab follows the link of its only slab. -/
theorem not_event_pool_null_free :
    ¬ ∀ memory_pool_size : Int, Words.InInt memory_pool_size →
      NullFree (orFour memory_pool_size) sizeofEvent := by
  intro hall
  exact ((hall 1 (by decide)) _ .start).1 (mpoolGetData_single sizeofEvent)

end PoolSize

end Ebot
