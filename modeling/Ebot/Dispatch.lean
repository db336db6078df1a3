import Ebot.InterestSet
import Ebot.Library.FirstOccurrences

/-!
# One pass of the loop

`ebot_loop` as a whole: the reports of one `epoll_wait` are collected into the
ready queue, then `dispatch_events` empties the queue and makes the callbacks.
The callbacks considered here do not touch the base or its events.

The flag `queued` of an event says that it is in the queue.  Collecting offers
the queue the selected events one by one, and the flag lets each in once; the
drain clears it again.  A whole pass therefore leaves base and events as they
were (`ebotLoop_eq`).
-/

namespace Ebot

open Function FirstOccurrences

namespace Dispatch

open InterestSet

variable {κ α : Type}

/-- A callback that was made, with its arguments. -/
structure Invocation (κ α : Type) where
  cb : κ
  fd : Fd
  arg : α
deriving DecidableEq

/-- What `dispatch_events` invokes for an event, if anything. -/
def invocation (e : Event κ α) : Option (Invocation κ α) :=
  e.callback.map fun cb => ⟨cb, e.fd, e.arg⟩

/-- `dispatch_events`: the callbacks it makes, the base and the heap after. -/
def dispatchEvents (eb : EbotBase) (ev : Nat → Event κ α) :
    List (Invocation κ α) × EbotBase × (Nat → Event κ α) :=
  match _h : dispatchNext eb ev with
  | none => ([], eb, ev)
  | some (p, eb', ev') =>
      let rest := dispatchEvents eb' ev'
      ((invocation (ev' p)).toList ++ rest.1, rest.2)
termination_by eb.event_readies.length
decreasing_by
  rw [(dispatchNext_some _h).1]
  exact Nat.lt_succ_self _

/-- The answer of `epoll_wait`. -/
inductive EpollWait where
  /-- It failed; `eintr` says that `errno` is `EINTR`. -/
  | failed (eintr : Bool)
  /-- It filled in these entries. -/
  | ready (reports : List Report)
deriving DecidableEq

/-- `ebot_loop`: its return value, the callbacks it makes, the base and the
heap after. -/
def ebotLoop (eb : EbotBase) (ev : Nat → Event κ α) :
    EpollWait → Except Stop
      (Int × List (Invocation κ α) × EbotBase × (Nat → Event κ α))
  | .failed eintr => .ok (if eintr then 0 else -1, [], eb, ev)
  | .ready reports => do
      let (eb, ev) ← ebotLoopCollect eb ev reports
      .ok (0, dispatchEvents eb ev)

/-- The event a report selects in one direction, if there is one. -/
def selectedBy (eb : EbotBase) (rep : Report) (d : Dir) : List Nat :=
  if rep.events.reports d then (eb.slot d rep.fd).toList else []

/-- The events the reports select, in their order, read before write. -/
def selected (eb : EbotBase) (reports : List Report) : List Nat :=
  reports.flatMap fun rep => selectedBy eb rep .read ++ selectedBy eb rep .write

section Collect

variable {eb : EbotBase} {ev : Nat → Event κ α} {sel : List Nat} {p : Nat}

/-- The base after the events of `sel` were offered to its empty queue. -/
def offered (eb : EbotBase) (sel : List Nat) : EbotBase :=
  { eb with event_readies := sel.eraseDups }

/-- Every registered event has `queued = 0`. -/
def Unqueued (eb : EbotBase) (ev : Nat → Event κ α) : Prop :=
  ∀ d fd p, eb.slot d fd = some p → (ev p).queued = false

@[simp] theorem offered_slot
    {d : Dir} {fd : Nat} :
    (offered eb sel).slot d fd = eb.slot d fd := by
  cases d <;> rfl

/-- A registered event is let into the queue unless it was offered before. -/
theorem queuedEventReadies_offered
    (hunq : (ev p).queued = false) :
    (queuedEventReadies (offered eb sel) (markQueued sel ev) (some p)).2 =
      (offered eb (sel ++ [p]), markQueued (sel ++ [p]) ev) := by
  unfold queuedEventReadies
  dsimp only
  by_cases hp : p ∈ sel
  · have hflag : (markQueued sel ev p).queued = true := by
      simp [markQueued, hp]
    have hsame : markQueued (sel ++ [p]) ev = markQueued sel ev := by
      funext q
      unfold markQueued
      by_cases hq : q = p
      · subst hq
        simp [hp]
      · simp [hq]
    rw [if_pos hflag, hsame]
    unfold offered
    rw [eraseDups_append_of_mem hp]
  · have hflag : ¬ (markQueued sel ev p).queued = true := by
      simp [markQueued, hp, hunq]
    have hmark : markQueued (sel ++ [p]) ev =
        update (markQueued sel ev) p { markQueued sel ev p with queued := true } := by
      funext q
      by_cases hq : q = p
      · subst hq
        simp [markQueued, hp]
      · simp [markQueued, hq]
    rw [if_neg hflag, hmark]
    unfold offered
    rw [eraseDups_append_of_not_mem hp]

/-- One `if` of the collecting loop offers what its report selects. -/
theorem queueReported_offered
    {rep : Report}
    (sel : List Nat)
    (d : Dir)
    (hcovers : eb.Covers rep.fd)
    (hunq : Unqueued eb ev) :
    queueReported (rep.events.reports d) d rep.fd (offered eb sel)
        (markQueued sel ev) =
      .ok (offered eb (sel ++ selectedBy eb rep d),
        markQueued (sel ++ selectedBy eb rep d) ev) := by
  unfold queueReported selectedBy
  cases rep.events.reports d with
  | false => simp
  | true =>
      have hget : ((offered eb sel).waits d).get rep.fd = .ok (eb.slot d rep.fd) := by
        cases d with
        | read => exact hcovers.read.peek
        | write => exact hcovers.write.peek
      simp only [if_true, hget, ok_bind]
      cases hslot : eb.slot d rep.fd with
      | none => simp [queuedEventReadies]
      | some p =>
          rw [queuedEventReadies_offered (hunq d rep.fd p hslot)]
          rfl

/-- The collecting loop offers everything the reports select. -/
theorem ebotLoopCollect_offered
    {reports : List Report}
    (sel : List Nat)
    (hcovers : ∀ rep ∈ reports, eb.Covers rep.fd)
    (hunq : Unqueued eb ev) :
    ebotLoopCollect (offered eb sel) (markQueued sel ev) reports =
      .ok (offered eb (sel ++ selected eb reports),
        markQueued (sel ++ selected eb reports) ev) := by
  induction reports generalizing sel with
  | nil => simp [ebotLoopCollect, selected]
  | cons rep reports ih =>
      have hrep : eb.Covers rep.fd := hcovers rep (by simp)
      have hread := queueReported_offered sel .read hrep hunq
      have hwrite := queueReported_offered (sel ++ selectedBy eb rep .read) .write
        hrep hunq
      unfold ebotLoopCollect
      simp only [EpollEvents.reports] at hread hwrite
      rw [hread]
      simp only [ok_bind]
      rw [hwrite]
      simp only [ok_bind]
      rw [ih _ fun rep' hmem => hcovers rep' (List.mem_cons_of_mem rep hmem)]
      simp [selected]

end Collect

section Drain

variable {eb : EbotBase} {ev : Nat → Event κ α} {q : List Nat}

/-- Taking the first event clears its flag and leaves those of the others. -/
theorem update_markQueued
    {p : Nat}
    (hp : p ∉ q)
    (hunq : (ev p).queued = false) :
    update (markQueued (p :: q) ev) p
        { markQueued (p :: q) ev p with queued := false } =
      markQueued q ev := by
  funext q'
  by_cases hq' : q' = p
  · subst hq'
    have hsame : { ev q' with queued := false } = ev q' := by
      rw [← hunq]
    simp [markQueued, hp, hsame]
  · simp [markQueued, hq']

/-- The drain invokes the queued events in order, each once, and clears their
flags. -/
theorem dispatchEvents_eq
    (eb : EbotBase)
    (hq : q.Nodup)
    (hunq : ∀ p ∈ q, (ev p).queued = false) :
    dispatchEvents { eb with event_readies := q } (markQueued q ev) =
      (q.filterMap fun p => invocation (ev p), { eb with event_readies := [] }, ev) := by
  induction q with
  | nil =>
      have hmark : markQueued [] ev = ev := by
        funext p
        simp [markQueued]
      unfold dispatchEvents
      rw [hmark]
      rfl
  | cons p q ih =>
      obtain ⟨hp, hnodup⟩ := List.nodup_cons.mp hq
      have hfirst : (ev p).queued = false := hunq p (by simp)
      have hnext : dispatchNext { eb with event_readies := p :: q }
          (markQueued (p :: q) ev) =
            some (p, { eb with event_readies := q }, markQueued q ev) := by
        unfold dispatchNext
        dsimp only
        rw [update_markQueued hp hfirst]
      have hrest := ih hnodup fun p' hp' => hunq p' (by simp [hp'])
      have hself : markQueued q ev p = ev p := by
        simp [markQueued, hp]
      rw [dispatchEvents]
      split
      · rename_i hnone
        rw [hnext] at hnone
        cases hnone
      · rename_i p' eb' ev' hsome
        rw [hnext] at hsome
        cases hsome
        rw [hrest, hself, List.filterMap_cons]
        cases invocation (ev p) <;> rfl

end Drain

section Pass

variable {eb : EbotBase} {ev : Nat → Event κ α} {reports : List Report} {p : Nat}

theorem mem_selectedBy
    {rep : Report} {d : Dir} :
    p ∈ selectedBy eb rep d ↔
      rep.events.reports d = true ∧ eb.slot d rep.fd = some p := by
  unfold selectedBy
  cases rep.events.reports d with
  | false => simp
  | true => simp

theorem mem_selected :
    p ∈ selected eb reports ↔
      ∃ rep ∈ reports, ∃ d, rep.events.reports d = true ∧
        eb.slot d rep.fd = some p := by
  unfold selected
  simp only [List.mem_flatMap, List.mem_append, mem_selectedBy]
  constructor
  · rintro ⟨rep, hrep, h | h⟩
    · exact ⟨rep, hrep, .read, h⟩
    · exact ⟨rep, hrep, .write, h⟩
  · rintro ⟨rep, hrep, d, h⟩
    cases d with
    | read => exact ⟨rep, hrep, .inl h⟩
    | write => exact ⟨rep, hrep, .inr h⟩

/-- For an event of one of the two kinds only `cb` decides. -/
theorem invocation_of_has
    {e : Event κ α} {d : Dir}
    (h : e.kide.has d = true) :
    invocation e = e.cb.map fun cb => ⟨cb, e.fd, e.arg⟩ := by
  have hkide : e.kide.read = true ∨ e.kide.write = true := by
    cases d with
    | read => exact .inl h
    | write => exact .inr h
  unfold invocation Event.callback
  rw [if_pos hkide]

/-- A whole pass: the callbacks of the selected events, in the order of their
first selection; base and events are what they were. -/
theorem ebotLoop_eq
    (hempty : eb.event_readies = [])
    (hunq : Unqueued eb ev)
    (hcovers : ∀ rep ∈ reports, eb.Covers rep.fd) :
    ebotLoop eb ev (.ready reports) =
      .ok (0, (selected eb reports).eraseDups.filterMap fun p => invocation (ev p),
        eb, ev) := by
  have hstart : offered eb [] = eb := by
    unfold offered
    rw [List.eraseDups_nil, ← hempty]
  have hmark : markQueued [] ev = ev := by
    funext p
    simp [markQueued]
  have hcollect := ebotLoopCollect_offered [] hcovers hunq
  rw [hstart, hmark, List.nil_append] at hcollect
  have hmark' : markQueued (selected eb reports) ev =
      markQueued (selected eb reports).eraseDups ev := by
    funext p
    simp [markQueued]
  have hselected : ∀ p ∈ (selected eb reports).eraseDups, (ev p).queued = false := by
    intro p hp
    obtain ⟨rep, -, d, -, hslot⟩ := mem_selected.mp (List.mem_eraseDups.mp hp)
    exact hunq d rep.fd p hslot
  have hdrain := dispatchEvents_eq eb (nodup_eraseDups (selected eb reports)) hselected
  unfold ebotLoop
  simp only [hcollect, ok_bind]
  rw [hmark']
  unfold offered
  rw [hdrain, ← hempty]

end Pass

/-- One pass over a base with an empty queue whose registered events are not
queued: it makes the callbacks of exactly the events some report selects, each
once, in the order of first selection, and leaves the queue empty, all flags
clear and everything else as it was. -/
theorem loop_dispatches_selected_once
    {κ α : Type}
    (eb : EbotBase)
    (ev : Nat → Event κ α)
    (reports : List Report)
    (htables : Whole eb)
    (hempty : eb.event_readies = [])
    (hunq : ∀ d fd p, eb.slot d fd = some p → (ev p).queued = false)
    (hfds : ∀ rep ∈ reports, rep.fd < eb.wait_sz) :
    ∃ (order : List Nat) (eb' : EbotBase) (ev' : Nat → Event κ α),
      ebotLoop eb ev (.ready reports) =
        .ok (0, order.filterMap fun p => invocation (ev p), eb', ev') ∧
      order = (selected eb reports).eraseDups ∧
      order.Nodup ∧
      (∀ p, p ∈ order ↔ ∃ rep ∈ reports, ∃ d, rep.events.reports d = true ∧
        eb.slot d rep.fd = some p) ∧
      (∀ p d, (ev p).kide.has d = true →
        invocation (ev p) = (ev p).cb.map fun cb => ⟨cb, (ev p).fd, (ev p).arg⟩) ∧
      eb'.event_readies = [] ∧
      (∀ d fd p, eb'.slot d fd = some p → (ev' p).queued = false) ∧
      eb' = eb ∧ ev' = ev := by
  have hcovers : ∀ rep ∈ reports, eb.Covers rep.fd :=
    fun rep hrep => htables.covers (hfds rep hrep)
  refine ⟨(selected eb reports).eraseDups, eb, ev, ebotLoop_eq hempty hunq hcovers, rfl,
    nodup_eraseDups _, fun p => ?_, fun p d hd => invocation_of_has hd, hempty, hunq,
    rfl, rfl⟩
  rw [List.mem_eraseDups, mem_selected]

/-- A base with a read event 1 and a write event 2 on the descriptor 7. -/
def bothOnSeven : EbotBase :=
  { ebotNew ⟨true, true⟩ with
    read_waits := ⟨true, 1024, update (fun _ => none) 7 (some 1)⟩
    write_waits := ⟨true, 1024, update (fun _ => none) 7 (some 2)⟩ }

/-- Their heap; every callback is named by the number of its event. -/
def eventsOnSeven (p : Nat) : Event Nat Unit :=
  eventOf (if p = 1 then .read else .write) 7 (some p) ()

/-- The descriptor is reported twice, and readable both times: each of its two
events is dispatched once, the read event first. -/
theorem loop_dispatches_selected_once_seven :
    ebotLoop bothOnSeven eventsOnSeven
        (.ready [⟨7, ⟨true, true, false⟩⟩, ⟨7, ⟨true, false, false⟩⟩]) =
      .ok (0, [⟨1, 7, ()⟩, ⟨2, 7, ()⟩], bothOnSeven, eventsOnSeven) := by
  have htables : Whole bothOnSeven := ⟨⟨rfl, rfl, rfl⟩, rfl⟩
  obtain ⟨order, eb', ev', hloop, rfl, -, -, -, -, -, rfl, rfl⟩ :=
    loop_dispatches_selected_once bothOnSeven eventsOnSeven
      [⟨7, ⟨true, true, false⟩⟩, ⟨7, ⟨true, false, false⟩⟩] htables rfl
      (fun _ _ _ _ => rfl) (by decide)
  exact hloop

end Dispatch

end Ebot
