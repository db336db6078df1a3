import Ebot.EventTables
import Ebot.Library.History
import Ebot.Library.Transition

/-!
# Runs of an event base

An event base together with whatever drives it.  The moves are the calls that
the loop and the callbacks make: filling in an event, `ebot_add_event`,
`ebot_del_event`, a batch of reports arriving in `ebot_loop`, and one round of
`dispatch_events`.  They may come in any order, so every behaviour of the
callbacks is covered, nested loops included.
-/

namespace Ebot

open Function History Transition

namespace EventLoop

variable {κ α : Type}

/-- Moves of a base and its callbacks. -/
inductive Act (κ α : Type) where
  /-- `event_read` or `event_write` of the event at `p`. -/
  | init (p : Nat) (d : Dir) (fd : Fd) (cb : Option κ) (arg : α)
  /-- `ebot_add_event`. -/
  | add (p : Nat) (env : AddEnv)
  /-- `ebot_del_event`, with the answer of `epoll_ctl`. -/
  | del (p : Nat) (ctl : Bool)
  /-- `epoll_wait` returned these reports in `ebot_loop`. -/
  | wait (reports : List Report)
  /-- One round of `dispatch_events`. -/
  | next

/-- What happened, as far as registration and callbacks are concerned. -/
inductive Entry where
  /-- `ebot_add_event` returned 0. -/
  | added (p : Nat)
  /-- `ebot_del_event` returned 0. -/
  | deleted (p : Nat)
  /-- The callback of the event was invoked. -/
  | fired (p : Nat)
deriving DecidableEq

/-- A base, the events its pointers point to, and the history. -/
structure LoopState (κ α : Type) where
  base : EbotBase
  ev : Nat → Event κ α
  log : List Entry

/-- A new base, all events zeroed. -/
def start (kides : Kides) (arg : α) : LoopState κ α :=
  { base := ebotNew kides
    ev := fun _ => { fd := 0, kide := ⟨false, false⟩, queued := false,
                     cb := none, arg }
    log := [] }

/-- One move. -/
def step (s : LoopState κ α) : Act κ α → Except Stop (LoopState κ α)
  | .init p d fd cb arg => do
      let ev ← eventInit s.ev p (eventOf d fd cb arg)
      .ok { s with ev }
  | .add p env => do
      let (ret, base) ← ebotAddEvent env s.base p (s.ev p)
      .ok { s with base, log := s.log ++ if ret = 0 then [.added p] else [] }
  | .del p ctl => do
      let (ret, base) ← ebotDelEvent ctl s.base (s.ev p)
      .ok { s with base, log := s.log ++ if ret = 0 then [.deleted p] else [] }
  | .wait reports => do
      let (base, ev) ← ebotLoopCollect s.base s.ev reports
      .ok { s with base, ev }
  | .next =>
      match dispatchNext s.base s.ev with
      | none => .ok s
      | some (p, base, ev) =>
          .ok { base, ev,
                log := s.log ++ if (ev p).callback.isSome then [.fired p] else [] }

/-- The last that happened to the registration of `p` is that it was deleted. -/
def Deregistered (p : Nat) (log : List Entry) : Prop :=
  ∃ past future, log = past ++ .deleted p :: future ∧ .added p ∉ future

/-- No callback of an event is invoked while it is deregistered. -/
def NeverFiresDeregistered (log : List Entry) : Prop :=
  Always (fun past x => ∀ p, x = .fired p → ¬ Deregistered p past) log

/-- An event is deregistered only when it is not queued, and filled in anew
only when it is in no table. -/
def RemovesUnqueued (s : LoopState κ α) : Act κ α → Prop
  | .init p _ _ _ _ => ∀ d fd, s.base.slot d fd ≠ some p
  | .del p ctl => ctl = true → p ∉ s.base.event_readies
  | _ => True

/-- The same for moves that fill in no event, where it can be decided. -/
def KeepsQueued (s : LoopState κ α) : Act κ α → Prop
  | .init _ _ _ _ _ => False
  | .del p ctl => ctl = true → p ∉ s.base.event_readies
  | _ => True

instance (s : LoopState κ α) (a : Act κ α) : Decidable (KeepsQueued s a) := by
  rcases a <;> dsimp only [KeepsQueued] <;> infer_instance

theorem KeepsQueued.removesUnqueued
    {s : LoopState κ α} {a : Act κ α}
    (h : KeepsQueued s a) :
    RemovesUnqueued s a := by
  cases a with
  | init => exact h.elim
  | del p ctl => exact h
  | _ => trivial

section Deregistered

variable {p q : Nat} {log : List Entry} {x : Entry}

theorem not_deregistered_nil : ¬ Deregistered p [] := by
  rintro ⟨past, future, h, -⟩
  simp at h

/-- Only a deletion makes an event deregistered. -/
theorem Deregistered.of_append_singleton
    (h : Deregistered p (log ++ [x])) :
    x = .deleted p ∨ x ≠ .added p ∧ Deregistered p log := by
  obtain ⟨past, future, heq, hno⟩ := h
  rcases List.eq_nil_or_concat future with rfl | ⟨future', y, rfl⟩
  · have := List.append_inj_right' heq rfl
    simp only [List.cons.injEq, and_true] at this
    exact .inl this
  · right
    rw [List.concat_eq_append] at heq hno
    rw [← List.cons_append, ← List.append_assoc] at heq
    have hx := List.append_inj_right' heq rfl
    have hlog := List.append_inj_left' heq rfl
    simp only [List.cons.injEq, and_true] at hx
    subst hx
    simp only [List.mem_append, List.mem_singleton, not_or] at hno
    exact ⟨fun hx => hno.2 hx.symm, past, future', hlog, hno.1⟩

end Deregistered

/-- What a run whose moves satisfy `RemovesUnqueued` keeps. -/
structure Good (s : LoopState κ α) : Prop where
  single : ∀ p d, (s.ev p).kide.has d = true → (s.ev p).IsFor d
  slots : ∀ d fd p, s.base.slot d fd = some p →
    (s.ev p).IsFor d ∧ (s.ev p).fd = fd
  out : ∀ p, Deregistered p s.log →
    p ∉ s.base.event_readies ∧ ∀ d fd, s.base.slot d fd ≠ some p
  log : NeverFiresDeregistered s.log

section Steps

variable {s s' : LoopState κ α} {p : Nat}

theorem good_start
    {kides : Kides} {arg : α} :
    Good (start kides arg : LoopState κ α) where
  single := by
    intro p d h
    cases d <;> simp [start, Kides.has] at h
  slots := by
    intro d fd p h
    cases d <;> simp [start, ebotNew, EbotBase.slot, EbotBase.waits] at h
  out := fun p h => absurd h not_deregistered_nil
  log := always_nil

theorem Good.init
    {d : Dir} {fd : Fd} {cb : Option κ} {arg : α}
    (hs : Good s)
    (hout : ∀ d fd, s.base.slot d fd ≠ some p)
    (h : step s (.init p d fd cb arg) = .ok s') :
    Good s' := by
  simp only [step] at h
  obtain ⟨ev, hev, h⟩ := bind_eq_ok.mp h
  cases h
  unfold eventInit at hev
  split at hev
  · cases hev
  · cases hev
    refine { hs with single := fun q d' hq => ?_, slots := fun d' fd' q hq => ?_ }
    · dsimp only at hq ⊢
      by_cases hqp : q = p
      · subst hqp
        rw [update_self] at hq ⊢
        exact congrArg Dir.kide (Dir.has_kide.mp hq).symm
      · rw [update_of_ne hqp] at hq ⊢
        exact hs.single q d' hq
    · have hqp : q ≠ p := fun he => hout d' fd' (he ▸ hq)
      dsimp only
      rw [update_of_ne hqp]
      exact hs.slots d' fd' q hq

theorem Good.add
    {env : AddEnv}
    (hs : Good s)
    (h : step s (.add p env) = .ok s') :
    Good s' := by
  simp only [step] at h
  obtain ⟨⟨ret, base⟩, hadd, h⟩ := bind_eq_ok.mp h
  cases h
  obtain ⟨hready, hslot⟩ := ebotAddEvent_slot hadd
  refine ⟨hs.single, fun d fd q hq => ?_, fun q hq => ?_, ?_⟩
  · rcases hslot d fd q hq with hold | ⟨-, rfl, rfl, hd⟩
    · exact hs.slots d fd q hold
    · exact ⟨hs.single q d hd, rfl⟩
  · have hq' : Deregistered q s.log ∧ (ret = 0 → q ≠ p) := by
      by_cases hret : ret = 0
      · simp only [hret, if_true] at hq
        rcases hq.of_append_singleton with hdel | ⟨hne, hq⟩
        · cases hdel
        · exact ⟨hq, fun _ he => hne (he ▸ rfl)⟩
      · simp only [hret, if_false, List.append_nil] at hq
        exact ⟨hq, fun h0 => absurd h0 hret⟩
    obtain ⟨hmem, hnone⟩ := hs.out q hq'.1
    refine ⟨hready ▸ hmem, fun d fd hq₁ => ?_⟩
    rcases hslot d fd q hq₁ with hold | ⟨hret, rfl, -⟩
    · exact hnone d fd hold
    · exact hq'.2 hret rfl
  · refine Always.append hs.log ?_
    intro x hx past q hfired
    split at hx
    · simp [hfired] at hx
    · simp at hx

theorem Good.del
    {ctl : Bool}
    (hs : Good s)
    (hout : ctl = true → p ∉ s.base.event_readies)
    (h : step s (.del p ctl) = .ok s') :
    Good s' := by
  simp only [step] at h
  obtain ⟨⟨ret, base⟩, hdel, h⟩ := bind_eq_ok.mp h
  cases h
  obtain ⟨hready, hsub⟩ := ebotDelEvent_subset hdel
  refine ⟨hs.single, fun d fd q hq => hs.slots d fd q (hsub d fd q hq), ?_, ?_⟩
  · intro q hq
    dsimp only at hq ⊢
    rw [hready]
    have hq' : q = p ∧ ret = 0 ∨ Deregistered q s.log := by
      by_cases hret : ret = 0
      · simp only [hret, if_true] at hq
        rcases hq.of_append_singleton with he | ⟨-, hq⟩
        · cases he
          exact .inl ⟨rfl, hret⟩
        · exact .inr hq
      · simp only [hret, if_false, List.append_nil] at hq
        exact .inr hq
    rcases hq' with ⟨rfl, rfl⟩ | hq
    · have hctl : ctl = true := ebotDelEvent_granted hdel
      refine ⟨hout hctl, fun d fd hslot => ?_⟩
      -- the slot that still held the event is the one that was emptied
      obtain ⟨hfor, hfd⟩ := hs.slots d fd q (hsub d fd q hslot)
      rcases ebotDelEvent_slot hfor hdel with ⟨hret, -⟩ | ⟨-, -, hempty⟩
      · cases hret
      · rw [hempty, if_pos ⟨rfl, hfd.symm⟩] at hslot
        cases hslot
    · obtain ⟨hmem, hnone⟩ := hs.out q hq
      exact ⟨hmem, fun d fd hslot => hnone d fd (hsub d fd q hslot)⟩
  · refine Always.append hs.log ?_
    intro x hx past q hfired
    split at hx
    · simp [hfired] at hx
    · simp at hx

theorem Good.wait
    {reports : List Report}
    (hs : Good s)
    (h : step s (.wait reports) = .ok s') :
    Good s' := by
  simp only [step] at h
  obtain ⟨⟨base, ev⟩, hcollect, h⟩ := bind_eq_ok.mp h
  cases h
  obtain ⟨⟨new, hnew⟩, -⟩ := ebotLoopCollect_queues hcollect
  have hkide : ∀ q, (ev q).kide = (s.ev q).kide ∧ (ev q).fd = (s.ev q).fd := by
    intro q
    rw [hnew.heap]
    unfold markQueued
    split
    · exact ⟨rfl, rfl⟩
    · exact ⟨rfl, rfl⟩
  refine ⟨fun q d hq => ?_, fun d fd q hq => ?_, fun q hq => ?_, hs.log⟩
  · rw [(hkide q).1] at hq
    exact (hkide q).1.trans (hs.single q d hq)
  · rw [hnew.slot] at hq
    obtain ⟨hfor, hfd⟩ := hs.slots d fd q hq
    exact ⟨(hkide q).1.trans hfor, by rw [(hkide q).2, hfd]⟩
  · obtain ⟨hmem, hnone⟩ := hs.out q hq
    refine ⟨?_, fun d fd => by rw [hnew.slot]; exact hnone d fd⟩
    rw [hnew.base]
    simp only [List.mem_append, not_or]
    refine ⟨hmem, fun hq' => ?_⟩
    obtain ⟨d, fd, hslot⟩ := hnew.registered q hq'
    exact hnone d fd hslot

theorem Good.next
    (hs : Good s)
    (h : step s .next = .ok s') :
    Good s' := by
  simp only [step] at h
  split at h
  · cases h
    exact hs
  · rename_i p base ev hnext
    cases h
    obtain ⟨hready, hslot, -, hev⟩ := dispatchNext_some hnext
    have hkide : ∀ q, (ev q).kide = (s.ev q).kide ∧ (ev q).fd = (s.ev q).fd := by
      intro q
      rw [hev]
      by_cases hqp : q = p
      · subst hqp
        simp
      · simp [update_of_ne hqp]
    refine ⟨fun q d hq => ?_, fun d fd q hq => ?_, fun q hq => ?_, ?_⟩
    · rw [(hkide q).1] at hq
      exact (hkide q).1.trans (hs.single q d hq)
    · rw [hslot] at hq
      obtain ⟨hfor, hfd⟩ := hs.slots d fd q hq
      exact ⟨(hkide q).1.trans hfor, by rw [(hkide q).2, hfd]⟩
    · have hq' : Deregistered q s.log := by
        dsimp only at hq
        split at hq
        · rcases hq.of_append_singleton with he | ⟨-, hq⟩
          · cases he
          · exact hq
        · simpa using hq
      obtain ⟨hmem, hnone⟩ := hs.out q hq'
      rw [hready, List.mem_cons, not_or] at hmem
      exact ⟨hmem.2, fun d fd => by rw [hslot]; exact hnone d fd⟩
    · dsimp only
      split
      · refine Always.append_singleton hs.log ?_
        rintro q ⟨⟩ hdereg
        obtain ⟨hmem, -⟩ := hs.out p hdereg
        rw [hready] at hmem
        simp at hmem
      · simpa using hs.log

/-- One move that satisfies `RemovesUnqueued`. -/
theorem Good.step
    {a : Act κ α}
    (hs : Good s)
    (hgood : RemovesUnqueued s a)
    (h : step s a = .ok s') :
    Good s' := by
  cases a with
  | init p d fd cb arg => exact hs.init hgood h
  | add p env => exact hs.add h
  | del p ctl => exact hs.del hgood h
  | wait reports => exact hs.wait h
  | next => exact hs.next h

end Steps

/-- In every run in which no event is removed while it is queued, no callback of
a deregistered event is ever invoked. -/
theorem neverFires_of_reach
    {kides : Kides} {arg : α} {s : LoopState κ α}
    (hreach : Reach step RemovesUnqueued (start kides arg) s) :
    NeverFiresDeregistered s.log :=
  (hreach.invariant good_start fun _ _ _ hs hg h => Good.step hs hg h).log

end EventLoop

end Ebot
