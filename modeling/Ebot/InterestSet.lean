import Ebot.WaitTables

/-!
# The interest set of a base

What the kernel holds behind `epfd`, compared with the wait tables, over runs of
`ebot_add_event` and `ebot_del_event` on descriptors inside the tables.  Every
call that succeeds sets the mask of its descriptor to a function of the two
slots and of the direction it was for (`Call.Sets`), whatever was there before.
-/

namespace Ebot

open Function Transition

namespace InterestSet

open WaitTables

variable {κ α : Type}

/-- The event was filled in by `event_read` or `event_write`, and its
descriptor is below `wait_sz`. -/
def Proper (eb : EbotBase) (c : Call κ α) : Prop :=
  (∃ d, c.event.IsFor d) ∧ (c.event.fd : Nat) < eb.wait_sz

/-- The mask of a descriptor with these slots after a call for the kind
`last`. -/
def maskOf (r w : Option Nat) (last : Option Kides) : Option EpollEvents :=
  if r.isNone ∧ w.isNone then none
  else some
    { epollin := r.isSome
      epollout := w.isSome
      epollet := if r.isSome ∧ w.isSome then decide (last = some Dir.read.kide)
                 else r.isSome }

/-- Both tables are allocated and have `wait_sz` elements. -/
structure Whole (eb : EbotBase) : Prop where
  sized : Sized eb
  live : eb.read_waits.live = true

/-- What a call that returns 0 does: it sets the mask of its own descriptor and
leaves the others alone. -/
structure Call.Sets (c : Call κ α) (eb eb' : EbotBase) : Prop where
  whole : Whole eb'
  own : eb'.epoll c.event.fd =
    maskOf (eb'.slot .read c.event.fd) (eb'.slot .write c.event.fd)
      (some c.event.kide)
  other : ∀ fd : Nat, fd ≠ c.event.fd →
    eb'.epoll fd = eb.epoll fd ∧ ∀ d, eb'.slot d fd = eb.slot d fd

section Calls

variable {eb eb' : EbotBase} {env : AddEnv} {ctl : Bool} {e : Event κ α}
variable {p : Nat} {ret : Int} {d : Dir} {c : Call κ α}

theorem whole_ebotNew
    (kides : Kides) :
    Whole (ebotNew kides) where
  sized := sized_ebotNew kides
  live := rfl

theorem Whole.covers
    {fd : Nat}
    (h : Whole eb)
    (hlt : fd < eb.wait_sz) :
    eb.Covers fd :=
  h.sized.covers h.live hlt

/-- An add that returns 0. -/
theorem Whole.add
    (h : Whole eb)
    (hd : e.IsFor d)
    (hlt : (e.fd : Nat) < eb.wait_sz)
    (hadd : ebotAddEvent env eb p e = .ok (ret, eb')) :
    ret = -1 ∧ eb' = eb ∨ ret = 0 ∧ Call.Sets (.add env p e) eb eb' := by
  by_cases hsup : eb.Supports e
  · rw [ebotAddEvent_covered hsup (h.covers hlt) hlt] at hadd
    dsimp only at hadd
    split at hadd
    · cases hadd
      exact .inl ⟨rfl, rfl⟩
    · rename_i k hk
      cases hadd
      have hkide : e.kide = d.kide := hd
      have hop : addOp (eb.slot .read e.fd) (eb.slot .write e.fd) ≠ .del := by
        unfold addOp
        split <;> simp
      have hepoll := epollCtl_some hk
      rw [if_neg hop] at hepoll
      refine .inr ⟨rfl, ⟨⟨h.sized.read, h.sized.write, h.sized.live⟩, h.live⟩, ?_, ?_⟩
      · have hmask : k e.fd = some (addMask e.kide (eb.slot .read e.fd)
            (eb.slot .write e.fd)) := by
          rw [hepoll, update_self]
        refine Eq.trans hmask ?_
        simp only [Call.event, EbotBase.added_slot, hkide]
        cases d <;> cases eb.slot .read e.fd <;> cases eb.slot .write e.fd <;> rfl
      · intro fd hne
        refine ⟨?_, fun d' => ?_⟩
        · exact (congrFun hepoll fd).trans (update_of_ne hne _ _)
        · rw [EbotBase.added_slot, if_neg fun hc => hne hc.2.1]
  · rw [ebotAddEvent_of_not_supports hsup] at hadd
    cases hadd
    exact .inl ⟨rfl, rfl⟩

/-- A removal that returns 0. -/
theorem Whole.del
    (h : Whole eb)
    (hd : e.IsFor d)
    (hlt : (e.fd : Nat) < eb.wait_sz)
    (hdel : ebotDelEvent ctl eb e = .ok (ret, eb')) :
    ret = -1 ∧ eb' = eb ∨ ret = 0 ∧ Call.Sets (.del ctl e) eb eb' := by
  rw [ebotDelEvent_eq hd (h.covers hlt)] at hdel
  dsimp only at hdel
  split at hdel
  · cases hdel
    exact .inl ⟨rfl, rfl⟩
  · rename_i k hk
    cases hdel
    have hkide : e.kide = d.kide := hd
    have hepoll := epollCtl_some hk
    refine .inr ⟨rfl, ⟨⟨h.sized.read, h.sized.write, h.sized.live⟩, h.live⟩, ?_, ?_⟩
    · have hmask : k e.fd =
          if delOp (eb.slot d.other e.fd) = .del then none
          else some (delMask d (eb.slot d.other e.fd)) := by
        rw [hepoll, update_self]
      refine Eq.trans hmask ?_
      simp only [Call.event, EbotBase.emptied_slot, hkide]
      cases d with
      | read =>
          simp only [Dir.other, and_self, if_true, reduceCtorEq, false_and, if_false]
          have hcases : ∀ o : Option Nat,
              (if delOp o = .del then none else some (delMask .read o)) =
                maskOf none o (some Dir.read.kide) := by
            intro o
            cases o <;> rfl
          exact hcases _
      | write =>
          simp only [Dir.other, and_self, if_true, reduceCtorEq, false_and, if_false]
          have hcases : ∀ o : Option Nat,
              (if delOp o = .del then none else some (delMask .write o)) =
                maskOf o none (some Dir.write.kide) := by
            intro o
            cases o <;> rfl
          exact hcases _
    · intro fd hne
      refine ⟨?_, fun d' => ?_⟩
      · exact (congrFun hepoll fd).trans (update_of_ne hne _ _)
      · rw [EbotBase.emptied_slot, if_neg fun hc => hne hc.2]

/-- A call fails and changes nothing, or returns 0 and sets its mask. -/
theorem Whole.make
    (h : Whole eb)
    (hproper : Proper eb c)
    (hmake : c.make eb = .ok (ret, eb')) :
    ret = -1 ∧ eb' = eb ∨ ret = 0 ∧ Call.Sets c eb eb' := by
  obtain ⟨⟨d, hd⟩, hlt⟩ := hproper
  cases c with
  | add env p e => exact h.add hd hlt hmake
  | del ctl e => exact h.del hd hlt hmake

/-- Inside the tables every call returns. -/
theorem Whole.returns
    (h : Whole eb)
    (hproper : Proper eb c) :
    ∃ o, c.make eb = .ok o := by
  obtain ⟨⟨d, hd⟩, hlt⟩ := hproper
  cases c with
  | add env p e =>
      by_cases hsup : eb.Supports e
      · simp only [Call.make, Call.event] at hd hlt ⊢
        rw [ebotAddEvent_covered hsup (h.covers hlt) hlt]
        dsimp only
        split
        · exact ⟨_, rfl⟩
        · exact ⟨_, rfl⟩
      · exact ⟨_, ebotAddEvent_of_not_supports hsup⟩
  | del ctl e =>
      simp only [Call.make, Call.event] at hd hlt ⊢
      rw [ebotDelEvent_eq hd (h.covers hlt)]
      dsimp only
      split
      · exact ⟨_, rfl⟩
      · exact ⟨_, rfl⟩

end Calls

/-! ## Any calls -/

/-- The interest set mirrors the tables, up to the trigger mode. -/
structure Mirrors (eb : EbotBase) : Prop where
  whole : Whole eb
  mask : ∀ fd, ∃ last, eb.epoll fd = maskOf (eb.slot .read fd) (eb.slot .write fd) last

section Mirrors

variable {eb eb' : EbotBase} {c : Call κ α}

theorem mirrors_ebotNew
    (kides : Kides) :
    Mirrors (ebotNew kides) where
  whole := whole_ebotNew kides
  mask := fun _ => ⟨none, rfl⟩

theorem Mirrors.step
    (h : Mirrors eb)
    (hproper : Proper eb c)
    (hstep : WaitTables.step eb c = .ok eb') :
    Mirrors eb' := by
  obtain ⟨ret, hmake⟩ := step_eq_ok.mp hstep
  rcases h.whole.make hproper hmake with ⟨-, rfl⟩ | ⟨-, hsets⟩
  · exact h
  · refine ⟨hsets.whole, fun fd => ?_⟩
    by_cases hfd : fd = c.event.fd
    · subst hfd
      exact ⟨_, hsets.own⟩
    · obtain ⟨hepoll, hslot⟩ := hsets.other fd hfd
      rw [hepoll, hslot, hslot]
      exact h.mask fd

/-- What the mask says about the two slots. -/
theorem Mirrors.iff
    (h : Mirrors eb)
    (fd : Nat) :
    (eb.epoll fd ≠ none ↔ eb.slot .read fd ≠ none ∨ eb.slot .write fd ≠ none) ∧
    ((∃ m, eb.epoll fd = some m ∧ m.epollin = true) ↔ eb.slot .read fd ≠ none) ∧
    ((∃ m, eb.epoll fd = some m ∧ m.epollout = true) ↔ eb.slot .write fd ≠ none) := by
  obtain ⟨last, hmask⟩ := h.mask fd
  rw [hmask]
  unfold maskOf
  cases eb.slot .read fd <;> cases eb.slot .write fd <;> simp

/-- Where the kernel refuses nothing of its own, an add inside the tables
returns 0. -/
theorem Mirrors.add_returns
    {e : Event κ α} {d : Dir} {p : Nat}
    (h : Mirrors eb)
    (hd : e.IsFor d)
    (hsup : eb.Supports e)
    (hlt : (e.fd : Nat) < eb.wait_sz) :
    ∃ eb', ebotAddEvent (.strict true) eb p e = .ok (0, eb') ∧ Mirrors eb' ∧
      eb'.kides = eb.kides ∧ eb'.wait_sz = eb.wait_sz := by
  have hctl : ∃ k, epollCtl true (addOp (eb.slot .read e.fd) (eb.slot .write e.fd)) e.fd
      (addMask e.kide (eb.slot .read e.fd) (eb.slot .write e.fd)) eb.epoll = some k := by
    obtain ⟨last, hmask⟩ := h.mask e.fd
    unfold epollCtl addOp
    rw [hmask]
    unfold maskOf
    cases eb.slot .read e.fd <;> cases eb.slot .write e.fd <;> exact ⟨_, rfl⟩
  obtain ⟨k, hk⟩ := hctl
  have hadd : ebotAddEvent (.strict true) eb p e =
      .ok (0, eb.added k p e (eb.slot .read e.fd) (eb.slot .write e.fd)) := by
    rw [ebotAddEvent_covered hsup (h.whole.covers hlt) hlt]
    dsimp only [AddEnv.strict]
    rw [hk]
  refine ⟨_, hadd, ?_, rfl, rfl⟩
  exact h.step (c := .add (.strict true) p e) ⟨⟨d, hd⟩, hlt⟩
    (step_eq_ok.mpr ⟨0, hadd⟩)

/-- Likewise a removal of what is registered. -/
theorem Mirrors.del_returns
    {e : Event κ α} {d : Dir}
    (h : Mirrors eb)
    (hd : e.IsFor d)
    (hlt : (e.fd : Nat) < eb.wait_sz)
    (hslot : eb.slot d e.fd ≠ none) :
    ∃ eb', ebotDelEvent true eb e = .ok (0, eb') ∧ Mirrors eb' ∧
      eb'.kides = eb.kides ∧ eb'.wait_sz = eb.wait_sz := by
  have hctl : ∃ k, epollCtl true (delOp (eb.slot d.other e.fd)) e.fd
      (delMask d (eb.slot d.other e.fd)) eb.epoll = some k := by
    have hin : eb.epoll e.fd ≠ none := by
      refine (h.iff e.fd).1.mpr ?_
      cases d with
      | read => exact .inl hslot
      | write => exact .inr hslot
    obtain ⟨m, hm⟩ := Option.ne_none_iff_exists'.mp hin
    unfold epollCtl delOp
    rw [hm]
    cases eb.slot d.other e.fd <;> exact ⟨_, rfl⟩
  obtain ⟨k, hk⟩ := hctl
  have hdel : ebotDelEvent true eb e = .ok (0, eb.emptied k d e.fd) := by
    rw [ebotDelEvent_eq hd (h.whole.covers hlt)]
    dsimp only
    rw [hk]
  refine ⟨_, hdel, ?_, rfl, rfl⟩
  exact h.step (c := .del true e) ⟨⟨d, hd⟩, hlt⟩ (step_eq_ok.mpr ⟨0, hdel⟩)

end Mirrors

/-- In every state that calls on descriptors below `wait_sz` lead to, whatever
the kernel answers: a descriptor is in the interest set exactly when one of its
slots is filled, and its mask asks for exactly the directions whose slot is
filled.  None of these calls faults. -/
theorem interest_set_mirrors_tables
    {κ α : Type}
    (kides : Kides)
    (eb : EbotBase)
    (hreach : Reach (WaitTables.step (κ := κ) (α := α)) Proper (ebotNew kides) eb) :
    (∀ fd,
      (eb.epoll fd ≠ none ↔ eb.slot .read fd ≠ none ∨ eb.slot .write fd ≠ none) ∧
      ((∃ m, eb.epoll fd = some m ∧ m.epollin = true) ↔ eb.slot .read fd ≠ none) ∧
      ((∃ m, eb.epoll fd = some m ∧ m.epollout = true) ↔
        eb.slot .write fd ≠ none)) ∧
    ∀ c : Call κ α, Proper eb c → ∃ eb', WaitTables.step eb c = .ok eb' := by
  have hmirrors : Mirrors eb :=
    hreach.invariant (mirrors_ebotNew kides) fun _ _ _ h hp hs => h.step hp hs
  constructor
  · exact hmirrors.iff
  · intro c hproper
    obtain ⟨⟨ret, eb'⟩, hmake⟩ := hmirrors.whole.returns hproper
    exact ⟨eb', step_eq_ok.mpr ⟨ret, hmake⟩⟩

/-- An add of a read event on the descriptor 7. -/
def readSeven (ctl : Bool) (p : Nat) : Call Unit Unit :=
  .add (.strict ctl) p (eventRead 7 (some ()) ())

/-- A read event on the descriptor 7, and a second one that the kernel
refuses. -/
theorem interest_set_mirrors_tables_refused :
    ∃ eb : EbotBase, Reach (WaitTables.step (κ := Unit) (α := Unit)) Proper
        (ebotNew ⟨true, true⟩) eb ∧ eb.slot .read 7 = some 1 ∧
      (eb.epoll 7 ≠ none ↔ eb.slot .read 7 ≠ none ∨ eb.slot .write 7 ≠ none) := by
  have hlt : 7 < 1024 := by decide
  have hfirst : Reach WaitTables.step Proper (ebotNew ⟨true, true⟩) _ :=
    Reach.start.next (a := readSeven true 1) ⟨⟨.read, rfl⟩, hlt⟩ rfl
  have hsecond := hfirst.next (a := readSeven false 2) ⟨⟨.read, rfl⟩, hlt⟩ rfl
  exact ⟨_, hsecond, rfl, ((interest_set_mirrors_tables ⟨true, true⟩ _ hsecond).1 7).1⟩

/-! ## Calls that succeed -/

/-- The calls of a list on descriptors below `wait_sz` all return 0, and lead
from a new base to `eb`. -/
inductive Succeeds (kides : Kides) : List (Call κ α) → EbotBase → Prop
  | none : Succeeds kides [] (ebotNew kides)
  | next {cs : List (Call κ α)} {c : Call κ α} {eb eb' : EbotBase} :
      Succeeds kides cs eb →
      Proper eb c →
      c.make eb = .ok (0, eb') →
      Succeeds kides (cs ++ [c]) eb'

/-- The kind of the last call for a descriptor. -/
def lastKide (fd : Nat) (cs : List (Call κ α)) : Option Kides :=
  (cs.reverse.find? fun c => c.event.fd == fd).map fun c => c.event.kide

section Succeeds

variable {kides : Kides} {cs : List (Call κ α)} {c : Call κ α} {eb eb' : EbotBase}
variable {fd : Nat} {d : Dir}

theorem lastKide_append_singleton :
    lastKide fd (cs ++ [c]) =
      if (c.event.fd : Nat) = fd then some c.event.kide else lastKide fd cs := by
  unfold lastKide
  rw [List.reverse_append, List.reverse_singleton, List.singleton_append,
    List.find?_cons]
  by_cases hfd : (c.event.fd : Nat) = fd
  · simp [hfd]
  · have hne : ((c.event.fd : Nat) == fd) = false := by simpa using hfd
    rw [if_neg hfd, hne]

/-- What the calls so far have left: the mask of every descriptor follows from
its slots and the last call for it, and one with a slot filled had a call. -/
structure Follows (cs : List (Call κ α)) (eb : EbotBase) : Prop where
  whole : Whole eb
  mask : ∀ fd, eb.epoll fd =
    maskOf (eb.slot .read fd) (eb.slot .write fd) (lastKide fd cs)
  last : ∀ d fd, eb.slot d fd ≠ none → ∃ d' : Dir, lastKide fd cs = some d'.kide

/-- A new base after no calls. -/
theorem follows_ebotNew
    (kides : Kides) :
    Follows ([] : List (Call κ α)) (ebotNew kides) where
  whole := whole_ebotNew kides
  mask := fun _ => rfl
  last := by
    intro d fd h
    cases d <;> exact absurd rfl h

/-- One more call. -/
theorem Follows.next
    (h : Follows cs eb)
    (hproper : Proper eb c)
    (hmake : c.make eb = .ok (0, eb')) :
    Follows (cs ++ [c]) eb' := by
  have hsets : Call.Sets c eb eb' := by
    rcases h.whole.make hproper hmake with ⟨hret, -⟩ | ⟨-, hsets⟩
    · cases hret
    · exact hsets
  refine ⟨hsets.whole, fun fd => ?_, fun d fd hslot => ?_⟩
  · rw [lastKide_append_singleton]
    by_cases hfd : fd = c.event.fd
    · subst hfd
      rw [if_pos rfl]
      exact hsets.own
    · obtain ⟨hepoll, hkeep⟩ := hsets.other fd hfd
      rw [if_neg (Ne.symm hfd), hepoll, hkeep, hkeep]
      exact h.mask fd
  · rw [lastKide_append_singleton]
    by_cases hfd : fd = c.event.fd
    · obtain ⟨⟨d', hd'⟩, -⟩ := hproper
      rw [if_pos hfd.symm]
      exact ⟨d', congrArg some hd'⟩
    · rw [(hsets.other fd hfd).2] at hslot
      rw [if_neg (Ne.symm hfd)]
      exact h.last d fd hslot

theorem follows_of_succeeds
    (h : Succeeds kides cs eb) :
    Follows cs eb := by
  induction h with
  | none => exact follows_ebotNew kides
  | next _ hproper hmake ih => exact ih.next hproper hmake

/-- A descriptor that no call was for has empty slots. -/
theorem slot_eq_none_of_succeeds
    (h : Succeeds kides cs eb)
    (hlast : lastKide fd cs = none) :
    eb.slot d fd = none := by
  by_contra hslot
  obtain ⟨d', hd'⟩ := (follows_of_succeeds h).last d fd hslot
  rw [hlast] at hd'
  cases hd'

/-- The mask of a descriptor with both slots filled tells the last call. -/
theorem maskOf_inj
    {r w r' w' : Option Nat} {d d' : Dir}
    (hr : r ≠ none)
    (hw : w ≠ none)
    (hr' : r' ≠ none)
    (hw' : w' ≠ none)
    (h : maskOf r w (some d.kide) = maskOf r' w' (some d'.kide)) :
    d = d' := by
  obtain ⟨p, rfl⟩ := Option.ne_none_iff_exists'.mp hr
  obtain ⟨q, rfl⟩ := Option.ne_none_iff_exists'.mp hw
  obtain ⟨p', rfl⟩ := Option.ne_none_iff_exists'.mp hr'
  obtain ⟨q', rfl⟩ := Option.ne_none_iff_exists'.mp hw'
  cases d <;> cases d' <;> first | rfl | simp [maskOf, Dir.kide] at h

/-- The mask depends on which slots are filled, and on the last call only when
both are. -/
theorem maskOf_congr
    {r w r' w' : Option Nat} {last last' : Option Kides}
    (hr : r.isSome = r'.isSome)
    (hw : w.isSome = w'.isSome)
    (hlast : r ≠ none → w ≠ none → last = last') :
    maskOf r w last = maskOf r' w' last' := by
  cases r with
  | none =>
      cases r' with
      | none => cases w <;> cases w' <;> simp_all [maskOf]
      | some p' => simp at hr
  | some p =>
      cases r' with
      | none => simp at hr
      | some p' =>
          cases w with
          | none =>
              cases w' with
              | none => rfl
              | some q' => simp at hw
          | some q =>
              cases w' with
              | none => simp at hw
              | some q' =>
                  rw [hlast (by simp) (by simp)]
                  rfl

end Succeeds

/-- Two sequences of successful calls that end with the same slots filled end
with the same masks exactly when, for every descriptor registered in both
directions, the last call in both was for the same direction. -/
theorem same_masks_iff_same_last
    {κ α : Type}
    (kides kides' : Kides)
    (cs cs' : List (Call κ α))
    (eb eb' : EbotBase)
    (h : Succeeds kides cs eb)
    (h' : Succeeds kides' cs' eb')
    (hslots : ∀ d fd, (eb.slot d fd).isSome = (eb'.slot d fd).isSome) :
    (∀ fd, eb.epoll fd = eb'.epoll fd) ↔
      ∀ fd, eb.slot .read fd ≠ none → eb.slot .write fd ≠ none →
        lastKide fd cs = lastKide fd cs' := by
  have hfollows : Follows cs eb := follows_of_succeeds h
  have hfollows' : Follows cs' eb' := follows_of_succeeds h'
  have hfilled : ∀ d fd, eb.slot d fd ≠ none → eb'.slot d fd ≠ none := by
    intro d fd hslot
    rw [← Option.isSome_iff_ne_none] at hslot ⊢
    rw [← hslots, hslot]
  constructor
  · intro hmask fd hread hwrite
    obtain ⟨d, hd⟩ := hfollows.last .read fd hread
    obtain ⟨d', hd'⟩ := hfollows'.last .read fd (hfilled .read fd hread)
    have hsame := hmask fd
    rw [hfollows.mask, hfollows'.mask, hd, hd'] at hsame
    have := maskOf_inj hread hwrite (hfilled .read fd hread) (hfilled .write fd hwrite)
      hsame
    rw [hd, hd', this]
  · intro hlast fd
    rw [hfollows.mask, hfollows'.mask]
    exact maskOf_congr (hslots .read fd) (hslots .write fd) (hlast fd)

/-- An add of the event of a direction on the descriptor 7. -/
def addSeven (d : Dir) (p : Nat) : Call Unit Unit :=
  .add (.strict true) p (eventOf d 7 (some ()) ())

/-- A removal of the event of a direction on the descriptor 7. -/
def delSeven (d : Dir) : Call Unit Unit :=
  .del true (eventOf d 7 (some ()) ())

section Seven

variable {cs : List (Call Unit Unit)} {c : Call Unit Unit} {eb eb' : EbotBase}

/-- One more call for the descriptor 7. -/
theorem Succeeds.seven
    (d : Dir)
    (h : Succeeds ⟨true, true⟩ cs eb)
    (hd : c.event = eventOf d 7 (some ()) ())
    (hlt : 7 < eb.wait_sz)
    (hmake : c.make eb = .ok (0, eb')) :
    Succeeds ⟨true, true⟩ (cs ++ [c]) eb' :=
  h.next ⟨⟨d, hd ▸ rfl⟩, hd ▸ hlt⟩ hmake

/-- After calls for the descriptor 7 only, the slots of two bases agree as soon
as those of 7 do. -/
theorem isSome_eq_of_seven
    {cs' : List (Call Unit Unit)}
    (h : Succeeds ⟨true, true⟩ cs eb)
    (h' : Succeeds ⟨true, true⟩ cs' eb')
    (hcs : ∀ fd, fd ≠ 7 → lastKide fd cs = none ∧ lastKide fd cs' = none)
    (hseven : ∀ d, (eb.slot d 7).isSome = (eb'.slot d 7).isSome) :
    ∀ d fd, (eb.slot d fd).isSome = (eb'.slot d fd).isSome := by
  intro d fd
  by_cases hfd : fd = 7
  · subst hfd
    exact hseven d
  · obtain ⟨hlast, hlast'⟩ := hcs fd hfd
    rw [slot_eq_none_of_succeeds h hlast, slot_eq_none_of_succeeds h' hlast']

end Seven

/-- Read then write, and the same with the write event removed and added
again. -/
theorem same_masks_iff_same_last_again :
    ∃ eb eb' : EbotBase, (∀ fd, eb.epoll fd = eb'.epoll fd) ∧
      eb.epoll 7 = some ⟨true, true, false⟩ := by
  have hlt : 7 < 1024 := by decide
  have hnew : Succeeds ⟨true, true⟩ ([] : List (Call Unit Unit)) _ := .none
  have hread := hnew.seven .read (c := addSeven .read 1) rfl hlt rfl
  have h := hread.seven .write (c := addSeven .write 2) rfl hlt rfl
  have hdel := h.seven .write (c := delSeven .write) rfl hlt rfl
  have h' := hdel.seven .write (c := addSeven .write 2) rfl hlt rfl
  have hlast : ∀ fd, fd ≠ 7 → lastKide fd [addSeven .read 1, addSeven .write 2] = none ∧
      lastKide fd [addSeven .read 1, addSeven .write 2, delSeven .write,
        addSeven .write 2] = none := by
    intro fd hfd
    have : 7 ≠ fd := Ne.symm hfd
    simp [lastKide, addSeven, delSeven, Call.event, this]
  have hslots := isSome_eq_of_seven h h' hlast fun d => by cases d <;> rfl
  have hmasks := (same_masks_iff_same_last _ _ _ _ _ _ h h' hslots).mpr fun fd _ _ => by
    by_cases hfd : fd = 7
    · subst hfd
      rfl
    · exact (hlast fd hfd).1.trans (hlast fd hfd).2.symm
  exact ⟨_, _, hmasks, rfl⟩

/-- Read then write leaves a level-triggered registration, write then read an
edge-triggered one. -/
theorem not_same_masks :
    ¬ ∀ (kides kides' : Kides) (cs cs' : List (Call Unit Unit)) (eb eb' : EbotBase),
      Succeeds kides cs eb → Succeeds kides' cs' eb' →
      (∀ d fd, (eb.slot d fd).isSome = (eb'.slot d fd).isSome) →
      ∀ fd, eb.epoll fd = eb'.epoll fd := by
  intro hall
  have hlt : 7 < 1024 := by decide
  have hnew : Succeeds ⟨true, true⟩ ([] : List (Call Unit Unit)) _ := .none
  have hread := hnew.seven .read (c := addSeven .read 1) rfl hlt rfl
  have h := hread.seven .write (c := addSeven .write 2) rfl hlt rfl
  have hwrite := hnew.seven .write (c := addSeven .write 2) rfl hlt rfl
  have h' := hwrite.seven .read (c := addSeven .read 1) rfl hlt rfl
  have hlast : ∀ fd, fd ≠ 7 → lastKide fd [addSeven .read 1, addSeven .write 2] = none ∧
      lastKide fd [addSeven .write 2, addSeven .read 1] = none := by
    intro fd hfd
    have : 7 ≠ fd := Ne.symm hfd
    simp [lastKide, addSeven, Call.event, this]
  have hslots := isSome_eq_of_seven h h' hlast fun d => by cases d <;> rfl
  have hmask := hall _ _ _ _ _ _ h h' hslots 7
  cases hmask

end InterestSet

end Ebot
