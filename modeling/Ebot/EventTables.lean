import Ebot.EventBase

/-!
# What the operations on an event base do

One lemma for each operation of `EventBase`: what it does to the wait tables,
to the ready queue and to the events.  Everything proved about runs uses these
lemmas and no definition behind them.
-/

namespace Ebot

open Function

variable {κ α : Type}

/-- The event is one that `event_read` or `event_write` fills in for `d`. -/
def Event.IsFor (e : Event κ α) (d : Dir) : Prop := e.kide = d.kide

@[simp] theorem eventOf_fd
    {d : Dir} {fd : Fd} {cb : Option κ} {arg : α} :
    (eventOf d fd cb arg).fd = fd := by
  rfl

/-- A callback is made only if one is installed. -/
theorem Event.cb_of_callback
    {e : Event κ α} {cb : κ}
    (h : e.callback = some cb) :
    e.cb = some cb := by
  unfold Event.callback at h
  split at h
  · exact h
  · cases h

theorem Dir.kide_injective
    {d d' : Dir}
    (h : d.kide = d'.kide) :
    d = d' := by
  cases d <;> cases d' <;> first | rfl | cases h

theorem Dir.has_kide
    {d d' : Dir} :
    d.kide.has d' = true ↔ d' = d := by
  cases d <;> cases d' <;> simp [Dir.kide, Kides.has]

section Slots

variable {b b' : Slots} {i j : Nat} {p : Option Nat}

theorem Slots.get_eq_ok
    (h : b.get i = .ok p) :
    p = b.slot i := by
  unfold Slots.get Slots.peek at h
  split at h
  · split at h
    · exact (Except.ok.inj h).symm
    · simp at h
  · cases h

theorem Slots.set_slot
    (h : b.set i p = .ok b') :
    b'.slot j = if j = i then p else b.slot j := by
  unfold Slots.set at h
  split at h
  · cases h
    simp [update_apply]
  · cases h

theorem Slots.setIf_slot
    {c : Bool}
    (h : b.setIf c i p = .ok b') :
    b'.slot j = if j = i ∧ c then p else b.slot j := by
  unfold Slots.setIf at h
  cases c with
  | true => simpa using Slots.set_slot h
  | false =>
      cases h
      simp

end Slots

section Operations

variable {eb eb' : EbotBase} {env : AddEnv} {ctl : Bool} {ev ev' : Nat → Event κ α}
variable {p q fd : Nat} {e : Event κ α} {ret : Int} {d d' : Dir}

/-- How `_resize_epoll_events` returns: the first `realloc` fails, or the second,
or neither. -/
inductive Resizes (env : AddEnv) (eb : EbotBase) : Int → EbotBase → Prop
  | refused :
      env.reallocR = false →
      Resizes env eb (-1) eb
  | halfway :
      env.reallocR = true →
      env.reallocW = false →
      Resizes env eb (-1) { eb with read_waits := { eb.read_waits with live := false } }
  | doubled :
      env.reallocR = true →
      env.reallocW = true →
      Resizes env eb 0
        { eb with
          read_waits :=
            { live := true, size := eb.wait_sz * 2,
              slot := fun i =>
                if i < eb.epsz ∧ i < eb.read_waits.size then eb.read_waits.slot i
                else none }
          write_waits :=
            { live := true, size := eb.wait_sz * 2,
              slot := fun i =>
                if i < eb.epsz ∧ i < eb.write_waits.size then eb.write_waits.slot i
                else none }
          wait_sz := eb.wait_sz * 2 }

theorem resizeEpollEvents_resizes
    (h : resizeEpollEvents env eb = .ok (ret, eb')) :
    eb.read_waits.live = true ∧ Resizes env eb ret eb' := by
  unfold resizeEpollEvents at h
  dsimp only at h
  split at h
  · cases h
  split at h
  · cases h
  rename_i hlive
  refine ⟨not_not.mp hlive, ?_⟩
  split at h
  · rename_i hfirst
    cases h
    exact .refused (by simpa using hfirst)
  rename_i hfirst
  split at h
  · cases h
  split at h
  · rename_i hsecond
    cases h
    exact .halfway (not_not.mp hfirst) (by simpa using hsecond)
  · rename_i hsecond
    cases h
    exact .doubled (not_not.mp hfirst) (not_not.mp hsecond)

/-- The growth in `ebot_add_event` is not made, or made and its result
ignored. -/
theorem growFor_resizes
    (h : growFor env eb fd = .ok eb') :
    fd < eb.wait_sz ∧ eb' = eb ∨
      eb.wait_sz ≤ fd ∧ eb.read_waits.live = true ∧ ∃ ret, Resizes env eb ret eb' := by
  unfold growFor at h
  split at h
  · rename_i hle
    cases hres : resizeEpollEvents env eb with
    | error _ =>
        rw [hres] at h
        cases h
    | ok o =>
        rw [hres] at h
        cases h
        obtain ⟨hlive, hresizes⟩ := resizeEpollEvents_resizes hres
        exact .inr ⟨hle, hlive, _, hresizes⟩
  · rename_i hlt
    cases h
    exact .inl ⟨by omega, rfl⟩

/-- Growing the tables moves nothing and invents nothing. -/
theorem growFor_slot
    (h : growFor env eb fd = .ok eb') :
    eb'.event_readies = eb.event_readies ∧
      ∀ d fd q, eb'.slot d fd = some q → eb.slot d fd = some q := by
  rcases growFor_resizes h with ⟨-, rfl⟩ | ⟨-, -, ret, hres⟩
  · exact ⟨rfl, fun _ _ _ hq => hq⟩
  · cases hres with
    | refused => exact ⟨rfl, fun _ _ _ hq => hq⟩
    | halfway =>
        refine ⟨rfl, fun d fd q hq => ?_⟩
        cases d <;> exact hq
    | doubled =>
        refine ⟨rfl, fun d fd q hq => ?_⟩
        cases d with
        | read =>
            simp only [EbotBase.slot, EbotBase.waits] at hq ⊢
            split at hq
            · exact hq
            · cases hq
        | write =>
            simp only [EbotBase.slot, EbotBase.waits] at hq ⊢
            split at hq
            · exact hq
            · cases hq

/-- Where the first `realloc` fails nothing changes. -/
theorem growFor_strict
    (h : growFor (.strict ctl) eb fd = .ok eb') :
    eb' = eb := by
  rcases growFor_resizes h with ⟨-, rfl⟩ | ⟨-, -, ret, hres⟩
  · rfl
  · cases hres with
    | refused => rfl
    | halfway hfirst => cases hfirst
    | doubled hfirst => cases hfirst

/-- What `ebot_add_event` found in the slot of a direction. -/
def foundFor (r w : Option Nat) : Dir → Option Nat
  | .read => r
  | .write => w

/-- The writes of `ebot_add_event`. -/
theorem addSlots_spec
    {r w : Option Nat} {rd wr : Slots} {k : Nat → Option EpollEvents}
    (hrd : eb.read_waits.setIf (e.kide.read && r.isNone) e.fd (some p) = .ok rd)
    (hwr : eb.write_waits.setIf (e.kide.write && w.isNone) e.fd (some p) = .ok wr) :
    ∀ d fd,
      ({ eb with epoll := k, read_waits := rd, write_waits := wr } :
          EbotBase).slot d fd =
        if e.kide.has d ∧ fd = e.fd ∧ foundFor r w d = none then some p
        else eb.slot d fd := by
  intro d fd
  cases d with
  | read =>
      have hrd' := Slots.setIf_slot hrd (j := fd)
      simp only [EbotBase.slot, EbotBase.waits, hrd', Kides.has, foundFor,
        Bool.and_eq_true, Option.isNone_iff_eq_none]
      congr 1
      exact propext and_left_comm
  | write =>
      have hwr' := Slots.setIf_slot hwr (j := fd)
      simp only [EbotBase.slot, EbotBase.waits, hwr', Kides.has, foundFor,
        Bool.and_eq_true, Option.isNone_iff_eq_none]
      congr 1
      exact propext and_left_comm

/-- An add leaves the ready queue alone, and puts only its own event into a
table: under the event's descriptor and kind, and when it returns 0. -/
theorem ebotAddEvent_slot
    (h : ebotAddEvent env eb p e = .ok (ret, eb')) :
    eb'.event_readies = eb.event_readies ∧
      ∀ d fd q, eb'.slot d fd = some q →
        eb.slot d fd = some q ∨
          ret = 0 ∧ q = p ∧ fd = e.fd ∧ e.kide.has d = true := by
  unfold ebotAddEvent at h
  split at h
  · cases h
    exact ⟨rfl, fun _ _ _ hq => .inl hq⟩
  obtain ⟨r, -, h⟩ := bind_eq_ok.mp h
  obtain ⟨w, -, h⟩ := bind_eq_ok.mp h
  dsimp only at h
  obtain ⟨eb₁, heb₁, h⟩ := bind_eq_ok.mp h
  obtain ⟨hready, hgrown⟩ := growFor_slot heb₁
  split at h
  · cases h
    exact ⟨hready, fun d fd q hq => .inl (hgrown d fd q hq)⟩
  · obtain ⟨rd, hrd, h⟩ := bind_eq_ok.mp h
    obtain ⟨wr, hwr, h⟩ := bind_eq_ok.mp h
    cases h
    refine ⟨hready, fun d fd q hq => ?_⟩
    rw [addSlots_spec hrd hwr] at hq
    split at hq
    · rename_i hc
      exact .inr ⟨rfl, (Option.some.inj hq).symm, hc.2.1, hc.1⟩
    · exact .inl (hgrown d fd q hq)

/-- An add whose table reads are in bounds either fails and changes nothing,
or returns 0 and fills the slot of its event if that is empty. -/
theorem ebotAddEvent_strict
    (hd : e.IsFor d)
    (h : ebotAddEvent (.strict ctl) eb p e = .ok (ret, eb')) :
    ret = -1 ∧ eb' = eb ∨
      ret = 0 ∧ eb'.event_readies = eb.event_readies ∧
        ∀ d' fd, eb'.slot d' fd =
          if d' = d ∧ fd = e.fd ∧ eb.slot d' fd = none then some p
          else eb.slot d' fd := by
  unfold ebotAddEvent at h
  split at h
  · cases h
    exact .inl ⟨rfl, rfl⟩
  obtain ⟨r, hr, h⟩ := bind_eq_ok.mp h
  obtain ⟨w, hw, h⟩ := bind_eq_ok.mp h
  have hr' : r = eb.slot .read e.fd := Slots.get_eq_ok hr
  have hw' : w = eb.slot .write e.fd := Slots.get_eq_ok hw
  dsimp only at h
  obtain ⟨eb₁, heb₁, h⟩ := bind_eq_ok.mp h
  cases growFor_strict heb₁
  split at h
  · cases h
    exact .inl ⟨rfl, rfl⟩
  · obtain ⟨rd, hrd, h⟩ := bind_eq_ok.mp h
    obtain ⟨wr, hwr, h⟩ := bind_eq_ok.mp h
    cases h
    refine .inr ⟨rfl, rfl, fun d' fd => ?_⟩
    have hhas : e.kide.has d' = true ↔ d' = d := by
      have hkide : e.kide = d.kide := hd
      rw [hkide, Dir.has_kide]
    rw [addSlots_spec hrd hwr]
    simp only [hhas]
    by_cases hc : d' = d ∧ fd = e.fd
    · obtain ⟨rfl, rfl⟩ := hc
      have hfound : foundFor r w d' = eb.slot d' e.fd := by
        cases d' with
        | read => exact hr'
        | write => exact hw'
      rw [hfound]
    · rw [if_neg fun h => hc ⟨h.1, h.2.1⟩, if_neg fun h => hc ⟨h.1, h.2.1⟩]

/-- An add that does not return -1 was not refused. -/
theorem ebotAddEvent_granted
    {env : AddEnv}
    (h : ebotAddEvent env eb p e = .ok (ret, eb'))
    (hret : ¬ ret < 0) :
    env.ctl = true := by
  unfold ebotAddEvent at h
  split at h
  · cases h
    exact absurd (by decide) hret
  obtain ⟨r, -, h⟩ := bind_eq_ok.mp h
  obtain ⟨w, -, h⟩ := bind_eq_ok.mp h
  dsimp only at h
  obtain ⟨eb₁, -, h⟩ := bind_eq_ok.mp h
  cases hctl : env.ctl with
  | true => rfl
  | false =>
      rw [hctl] at h
      cases h
      exact absurd (by decide) hret

/-- A removal leaves the ready queue alone and puts nothing into a table. -/
theorem ebotDelEvent_subset
    (h : ebotDelEvent ctl eb e = .ok (ret, eb')) :
    eb'.event_readies = eb.event_readies ∧
      ∀ d fd q, eb'.slot d fd = some q → eb.slot d fd = some q := by
  unfold ebotDelEvent at h
  obtain ⟨w, -, h⟩ := bind_eq_ok.mp h
  obtain ⟨r, -, h⟩ := bind_eq_ok.mp h
  dsimp only at h
  split at h
  · cases h
    exact ⟨rfl, fun _ _ _ hq => hq⟩
  · obtain ⟨rd, hrd, h⟩ := bind_eq_ok.mp h
    obtain ⟨wr, hwr, h⟩ := bind_eq_ok.mp h
    cases h
    refine ⟨rfl, fun d fd q hq => ?_⟩
    cases d with
    | read =>
        simp only [EbotBase.slot, EbotBase.waits, Slots.setIf_slot hrd] at hq
        split at hq
        · cases hq
        · exact hq
    | write =>
        simp only [EbotBase.slot, EbotBase.waits, Slots.setIf_slot hwr] at hq
        split at hq
        · cases hq
        · exact hq

/-- A removal that returns 0 was not refused. -/
theorem ebotDelEvent_granted
    (h : ebotDelEvent ctl eb e = .ok (0, eb')) :
    ctl = true := by
  unfold ebotDelEvent at h
  obtain ⟨w, -, h⟩ := bind_eq_ok.mp h
  obtain ⟨r, -, h⟩ := bind_eq_ok.mp h
  cases ctl with
  | true => rfl
  | false =>
      simp [epollCtl] at h

/-- A removal is refused and changes nothing, or returns 0 and empties exactly
the slot of its event. -/
theorem ebotDelEvent_slot
    (hd : e.IsFor d)
    (h : ebotDelEvent ctl eb e = .ok (ret, eb')) :
    ret = -1 ∧ eb' = eb ∨
      ret = 0 ∧ eb'.event_readies = eb.event_readies ∧
        ∀ d' fd, eb'.slot d' fd =
          if d' = d ∧ fd = e.fd then none else eb.slot d' fd := by
  unfold ebotDelEvent at h
  obtain ⟨w, hw, h⟩ := bind_eq_ok.mp h
  obtain ⟨r, hr, h⟩ := bind_eq_ok.mp h
  dsimp only at h
  have hkide : e.kide = d.kide := hd
  split at h
  · cases h
    exact .inl ⟨rfl, rfl⟩
  · obtain ⟨rd, hrd, h⟩ := bind_eq_ok.mp h
    obtain ⟨wr, hwr, h⟩ := bind_eq_ok.mp h
    cases h
    refine .inr ⟨rfl, rfl, fun d' fd => ?_⟩
    have hrd' := Slots.setIf_slot hrd (j := fd)
    have hwr' := Slots.setIf_slot hwr (j := fd)
    cases d with
    | read =>
        have hw' : w = eb.write_waits.slot e.fd := by
          rw [hkide] at hw
          exact Slots.get_eq_ok hw
        have hr' : r = none := by
          rw [hkide] at hr
          exact (Except.ok.inj hr).symm
        cases d' with
        | read => simp [EbotBase.slot, EbotBase.waits, hrd', hr']
        | write =>
            simp only [EbotBase.slot, EbotBase.waits, hwr', hw', reduceCtorEq,
              false_and, if_false]
            by_cases hfd : fd = e.fd
            · subst hfd
              cases eb.write_waits.slot e.fd <;> simp
            · simp [hfd]
    | write =>
        have hw' : w = none := by
          rw [hkide] at hw
          exact (Except.ok.inj hw).symm
        have hr' : r = eb.read_waits.slot e.fd := by
          rw [hkide, hw'] at hr
          exact Slots.get_eq_ok hr
        cases d' with
        | write => simp [EbotBase.slot, EbotBase.waits, hwr', hw']
        | read =>
            simp only [EbotBase.slot, EbotBase.waits, hrd', hr', reduceCtorEq,
              false_and, if_false]
            by_cases hfd : fd = e.fd
            · subst hfd
              cases eb.read_waits.slot e.fd <;> simp
            · simp [hfd]

/-- `epoll_ctl` without an extra refusal fails only on presence. -/
theorem epollCtl_some
    {ok : Bool} {op : EpollOp} {events : EpollEvents}
    {k k' : Nat → Option EpollEvents}
    (h : epollCtl ok op fd events k = some k') :
    k' = update k fd (if op = .del then none else some events) := by
  unfold epollCtl at h
  split at h
  · simpa using h.symm
  · simpa using h.symm
  · simpa using h.symm
  · cases h

/-- After an add that returns 0 its descriptor is in the interest set, and so
is everything that was. -/
theorem ebotAddEvent_epoll
    (h : ebotAddEvent (.strict ctl) eb p e = .ok (0, eb'))
    (hfd : fd = e.fd ∨ eb.epoll fd ≠ none) :
    eb'.epoll fd ≠ none := by
  unfold ebotAddEvent at h
  split at h
  · cases h
  obtain ⟨r, -, h⟩ := bind_eq_ok.mp h
  obtain ⟨w, -, h⟩ := bind_eq_ok.mp h
  dsimp only at h
  obtain ⟨eb₁, heb₁, h⟩ := bind_eq_ok.mp h
  cases growFor_strict heb₁
  split at h
  · simp at h
  · rename_i k hk
    obtain ⟨rd, -, h⟩ := bind_eq_ok.mp h
    obtain ⟨wr, -, h⟩ := bind_eq_ok.mp h
    cases h
    have hop : (if r.isSome = true ∨ w.isSome = true then EpollOp.mod else .add) ≠ .del := by
      split <;> simp
    rw [epollCtl_some hk, if_neg hop]
    by_cases hsame : fd = e.fd
    · simp [hsame]
    · simp only [update_of_ne hsame]
      exact hfd.resolve_left hsame

/-- A removal that returns 0 keeps a descriptor in the interest set when the
other direction is still registered. -/
theorem ebotDelEvent_epoll
    (hd : e.IsFor d)
    (h : ebotDelEvent ctl eb e = .ok (0, eb'))
    (hin : eb.epoll fd ≠ none)
    (hother : fd = e.fd → ∃ d', d' ≠ d ∧ eb.slot d' fd ≠ none) :
    eb'.epoll fd ≠ none := by
  unfold ebotDelEvent at h
  obtain ⟨w, hw, h⟩ := bind_eq_ok.mp h
  obtain ⟨r, hr, h⟩ := bind_eq_ok.mp h
  dsimp only at h
  have hkide : e.kide = d.kide := hd
  split at h
  · simp at h
  · rename_i k hk
    obtain ⟨rd, -, h⟩ := bind_eq_ok.mp h
    obtain ⟨wr, -, h⟩ := bind_eq_ok.mp h
    cases h
    rw [epollCtl_some hk]
    by_cases hsame : fd = e.fd
    · subst hsame
      obtain ⟨d', hne, hslot⟩ := hother rfl
      have hmod : w.isSome = true ∨ r.isSome = true := by
        cases d with
        | read =>
            cases d' with
            | read => exact absurd rfl hne
            | write =>
                rw [hkide] at hw
                rw [Slots.get_eq_ok hw]
                exact .inl (Option.isSome_iff_ne_none.mpr hslot)
        | write =>
            cases d' with
            | write => exact absurd rfl hne
            | read =>
                rw [hkide] at hw
                cases hw
                rw [hkide] at hr
                rw [Slots.get_eq_ok hr]
                exact .inr (Option.isSome_iff_ne_none.mpr hslot)
      simp [hmod]
    · simpa [update_of_ne hsame] using hin

/-- The kernel grants the removal of a descriptor it has, unless it refuses the
call for a reason of its own. -/
theorem ebotDelEvent_grants
    (h : ebotDelEvent true eb e = .ok (ret, eb'))
    (hin : eb.epoll e.fd ≠ none) :
    ret = 0 := by
  unfold ebotDelEvent at h
  obtain ⟨w, -, h⟩ := bind_eq_ok.mp h
  obtain ⟨r, -, h⟩ := bind_eq_ok.mp h
  dsimp only at h
  split at h
  · rename_i hk
    exfalso
    obtain ⟨events, hevents⟩ := Option.ne_none_iff_exists'.mp hin
    split at hk <;> simp [epollCtl, hevents] at hk
  · obtain ⟨rd, -, h⟩ := bind_eq_ok.mp h
    obtain ⟨wr, -, h⟩ := bind_eq_ok.mp h
    cases h
    rfl

end Operations

section Collection

variable {eb eb' eb₁ : EbotBase} {ev ev' ev₁ : Nat → Event κ α}
variable {new new' : List Nat} {p fd : Nat} {d : Dir}

/-- `epoll_wait` reported the direction. -/
def EpollEvents.reports (events : EpollEvents) : Dir → Bool
  | .read => events.epollin
  | .write => events.epollout

/-- The heap after the events of a list were marked as queued. -/
def markQueued (new : List Nat) (ev : Nat → Event κ α) (p : Nat) : Event κ α :=
  if p ∈ new then { ev p with queued := true } else ev p

/-- From one base and heap to another, exactly the events of `new` were
queued: registered ones that were not queued before. -/
structure Queues (eb : EbotBase) (ev : Nat → Event κ α) (new : List Nat)
    (eb' : EbotBase) (ev' : Nat → Event κ α) : Prop where
  base : eb' = { eb with event_readies := eb.event_readies ++ new }
  heap : ev' = markQueued new ev
  fresh : ∀ p ∈ new, (ev p).queued = false
  registered : ∀ p ∈ new, ∃ d fd, eb.slot d fd = some p
  nodup : new.Nodup

theorem Queues.slot
    (h : Queues eb ev new eb' ev') :
    eb'.slot d fd = eb.slot d fd := by
  rw [h.base]
  cases d <;> rfl

theorem Queues.queued_mono
    (h : Queues eb ev new eb' ev')
    (hq : (ev p).queued = true) :
    (ev' p).queued = true := by
  rw [h.heap]
  unfold markQueued
  split
  · rfl
  · exact hq

theorem Queues.refl : Queues eb ev [] eb ev where
  base := by simp
  heap := by
    funext p
    simp [markQueued]
  fresh := by simp
  registered := by simp
  nodup := .nil

theorem Queues.trans
    (h : Queues eb ev new eb₁ ev₁)
    (h' : Queues eb₁ ev₁ new' eb' ev') :
    Queues eb ev (new ++ new') eb' ev' := by
  have hout : ∀ p ∈ new', p ∉ new ∧ (ev p).queued = false := by
    intro p hp
    have hq := h'.fresh p hp
    rw [h.heap] at hq
    unfold markQueued at hq
    split at hq
    · cases hq
    · rename_i hnew
      exact ⟨hnew, hq⟩
  constructor
  · rw [h'.base, h.base]
    simp
  · funext p
    rw [h'.heap, h.heap]
    unfold markQueued
    by_cases hp' : p ∈ new'
    · simp [hp', (hout p hp').1]
    · simp [hp']
  · intro p hp
    rcases List.mem_append.mp hp with hp | hp
    · exact h.fresh p hp
    · exact (hout p hp).2
  · intro p hp
    rcases List.mem_append.mp hp with hp | hp
    · exact h.registered p hp
    · obtain ⟨d, fd, hslot⟩ := h'.registered p hp
      exact ⟨d, fd, h.slot ▸ hslot⟩
  · rw [List.nodup_append]
    refine ⟨h.nodup, h'.nodup, ?_⟩
    rintro p hp q hq rfl
    exact (hout p hq).1 hp

/-- One `if` of the collecting loop. -/
theorem queueReported_queues
    {reported : Bool}
    (h : queueReported reported d fd eb ev = .ok (eb', ev')) :
    (∃ new, Queues eb ev new eb' ev') ∧
      (reported = true → ∀ p, eb.slot d fd = some p → (ev' p).queued = true) := by
  unfold queueReported at h
  cases reported with
  | false =>
      cases h
      exact ⟨⟨[], .refl⟩, by simp⟩
  | true =>
      obtain ⟨o, ho, h⟩ := bind_eq_ok.mp h
      have ho' : eb.slot d fd = o := (Slots.get_eq_ok ho).symm
      cases o with
      | none =>
          cases h
          exact ⟨⟨[], .refl⟩, fun _ p hp => by simp [ho'] at hp⟩
      | some p =>
          by_cases hq : (ev p).queued = true
          · simp only [queuedEventReadies, hq, if_true] at h
            cases h
            refine ⟨⟨[], .refl⟩, fun _ p' hp' => ?_⟩
            rw [ho'] at hp'
            cases hp'
            exact hq
          · simp only [queuedEventReadies, hq] at h
            cases h
            refine ⟨⟨[p], ?_⟩, fun _ p' hp' => ?_⟩
            · constructor
              · rfl
              · funext p'
                unfold markQueued
                by_cases hp' : p' = p
                · subst hp'
                  simp
                · simp [hp']
              · simpa using hq
              · intro p' hp'
                cases List.mem_singleton.mp hp'
                exact ⟨d, fd, ho'⟩
              · simp
            · rw [ho'] at hp'
              cases hp'
              simp

/-- The collecting loop queues only registered events, each once, and after it
every registered event that was reported is queued. -/
theorem ebotLoopCollect_queues
    {reps : List Report}
    (h : ebotLoopCollect eb ev reps = .ok (eb', ev')) :
    (∃ new, Queues eb ev new eb' ev') ∧
      ∀ rep ∈ reps, ∀ d p, rep.events.reports d = true →
        eb.slot d rep.fd = some p → (ev' p).queued = true := by
  induction reps generalizing eb ev with
  | nil =>
      cases h
      exact ⟨⟨[], .refl⟩, by simp⟩
  | cons rep reps ih =>
      unfold ebotLoopCollect at h
      obtain ⟨⟨eb₁, ev₁⟩, hread, h⟩ := bind_eq_ok.mp h
      obtain ⟨⟨eb₂, ev₂⟩, hwrite, h⟩ := bind_eq_ok.mp h
      obtain ⟨⟨new₁, hnew₁⟩, hsel₁⟩ := queueReported_queues hread
      obtain ⟨⟨new₂, hnew₂⟩, hsel₂⟩ := queueReported_queues hwrite
      obtain ⟨⟨new₃, hnew₃⟩, hsel₃⟩ := ih h
      refine ⟨⟨_, (hnew₁.trans hnew₂).trans hnew₃⟩, ?_⟩
      intro rep' hmem d p hrep hslot
      rcases List.mem_cons.mp hmem with rfl | hmem
      · cases d with
        | read =>
            exact hnew₃.queued_mono (hnew₂.queued_mono (hsel₁ hrep p hslot))
        | write =>
            have hslot₁ : eb₁.slot .write rep'.fd = some p := hnew₁.slot ▸ hslot
            exact hnew₃.queued_mono (hsel₂ hrep p hslot₁)
      · have hslot₂ : eb₂.slot d rep'.fd = some p := by
          rw [hnew₂.slot, hnew₁.slot, hslot]
        exact hsel₃ rep' hmem d p hrep hslot₂

/-- What one round of the dispatching loop takes. -/
theorem dispatchNext_some
    (h : dispatchNext eb ev = some (p, eb', ev')) :
    eb.event_readies = p :: eb'.event_readies ∧
      (∀ d fd, eb'.slot d fd = eb.slot d fd) ∧
      eb'.epoll = eb.epoll ∧
      ev' = update ev p { ev p with queued := false } := by
  unfold dispatchNext at h
  cases hq : eb.event_readies with
  | nil => simp [hq] at h
  | cons q rest =>
      simp only [hq, Option.some.injEq, Prod.mk.injEq] at h
      obtain ⟨rfl, rfl, rfl⟩ := h
      refine ⟨rfl, fun d fd => ?_, rfl, rfl⟩
      cases d <;> rfl

end Collection

end Ebot
