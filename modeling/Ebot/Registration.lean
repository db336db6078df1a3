import Ebot.InterestSet

/-!
# What an add and a growth leave behind

Two outcomes of `ebot_add_event` its callers rely on.  That it returns 0 tells
the reactor that the base now holds the event; but an event for a slot that is
taken is not stored.  That the growth of the tables failed is not told to
anybody; but when the second `realloc` is the one that fails, `read_waits` is a
block that was freed.
-/

namespace Ebot

open Function Transition WaitTables InterestSet

variable {κ α : Type}

/-- `ebot_destroy`, as far as it frees the tables. -/
def ebotDestroy (eb : EbotBase) : Except Stop Unit := do
  let _ ← orFault (if eb.write_waits.live then some () else none)
  let _ ← orFault (if eb.read_waits.live then some () else none)
  .ok ()

/-! ## What a return value says -/

/-- What the return value of `ebot_add_event` should say about the event `e` at
`p`: after 0 its slot holds it and no other slot has changed, after -1 the
tables have not changed. -/
def ReturnsTrue (eb : EbotBase) (env : AddEnv) (p : Nat) (e : Event κ α) (d : Dir) :
    Prop :=
  ∃ ret eb', ebotAddEvent env eb p e = .ok (ret, eb') ∧
    (ret = 0 ∧ eb'.slot d e.fd = some p ∧
        (∀ d' (fd : Nat), ¬ (d' = d ∧ fd = e.fd) → eb'.slot d' fd = eb.slot d' fd) ∨
      ret = -1 ∧ ∀ d', eb'.waits d' = eb.waits d')

/-- The event is stored or refused.  An event of a kind that is not supported is
refused; any other finds `read_waits` allocated, and its slot is free or already
its own, or the kernel refuses, or the kernel does not know the descriptor. -/
def StoredOrRefused (eb : EbotBase) (env : AddEnv) (p : Nat) (e : Event κ α)
    (d : Dir) : Prop :=
  eb.Supports e →
    eb.read_waits.live = true ∧
      (eb.slot d e.fd = none ∨ eb.slot d e.fd = some p ∨ env.ctl = false ∨
        eb.epoll e.fd = none)

section Add

variable {eb eb' : EbotBase} {env : AddEnv} {e : Event κ α} {p : Nat} {d : Dir}

/-- An add that returns 0 leaves the slot of its event as it was when it was
taken. -/
theorem added_slot_of_isFor
    {k : Nat → Option EpollEvents} {d' : Dir} {fd : Nat}
    (hd : e.IsFor d) :
    (eb.added k p e (eb.slot .read e.fd) (eb.slot .write e.fd)).slot d' fd =
      if d' = d ∧ fd = e.fd then some ((eb.slot d e.fd).getD p) else eb.slot d' fd := by
  have hkide : e.kide = d.kide := hd
  have hfound : ∀ d, foundFor (eb.slot .read e.fd) (eb.slot .write e.fd) d =
      eb.slot d e.fd := by
    intro d
    cases d <;> rfl
  rw [EbotBase.added_slot, hkide, hfound]
  simp only [Dir.has_kide]
  by_cases hown : d' = d ∧ fd = e.fd
  · obtain ⟨rfl, rfl⟩ := hown
    cases hslot : eb.slot d' e.fd <;> simp
  · rw [if_neg hown, if_neg fun h => hown ⟨h.1, h.2.1⟩]

/-- For a slot that is taken the kernel is asked to modify what it has. -/
theorem addOp_of_slot
    {fd : Nat}
    (hslot : eb.slot d fd ≠ none) :
    addOp (eb.slot .read fd) (eb.slot .write fd) = .mod := by
  unfold addOp
  rw [if_pos]
  cases d with
  | read => exact .inl (Option.isSome_iff_ne_none.mpr hslot)
  | write => exact .inr (Option.isSome_iff_ne_none.mpr hslot)

theorem epollCtl_mod_eq_none
    {ok : Bool} {fd : Nat} {m : EpollEvents} {k : Nat → Option EpollEvents} :
    epollCtl ok .mod fd m k = none ↔ ok = false ∨ k fd = none := by
  unfold epollCtl
  cases ok <;> cases k fd <;> simp

/-- When the kernel grants the add, the slot must be free for the event. -/
theorem returnsTrue_iff_of_granted
    {k : Nat → Option EpollEvents}
    (hd : e.IsFor d)
    (hadd : ebotAddEvent env eb p e =
      .ok (0, eb.added k p e (eb.slot .read e.fd) (eb.slot .write e.fd))) :
    ReturnsTrue eb env p e d ↔ eb.slot d e.fd = none ∨ eb.slot d e.fd = some p := by
  have hown : (eb.added k p e (eb.slot .read e.fd) (eb.slot .write e.fd)).slot d e.fd =
      some ((eb.slot d e.fd).getD p) := by
    rw [added_slot_of_isFor hd, if_pos ⟨rfl, rfl⟩]
  constructor
  · rintro ⟨ret, eb', hret, hsays⟩
    rw [hadd] at hret
    cases hret
    rcases hsays with ⟨-, hstored, -⟩ | ⟨hneg, -⟩
    · rw [hown] at hstored
      cases hslot : eb.slot d e.fd with
      | none => exact .inl rfl
      | some q =>
          rw [hslot] at hstored
          exact .inr hstored
    · cases hneg
  · intro hslot
    refine ⟨0, _, hadd, .inl ⟨rfl, ?_, ?_⟩⟩
    · rw [hown]
      rcases hslot with h | h <;> rw [h] <;> rfl
    · intro d' fd hother
      rw [added_slot_of_isFor hd, if_neg hother]

/-- The first access is one of a freed block. -/
theorem not_returnsTrue_of_freed
    (hsup : eb.Supports e)
    (hfreed : ¬ eb.read_waits.live = true) :
    ¬ ReturnsTrue eb env p e d := by
  rintro ⟨ret, eb', hret, -⟩
  have hkinds : ¬ ¬ (e.kide.read ∧ eb.kides.read ∨ e.kide.write ∧ eb.kides.write) :=
    not_not_intro hsup
  unfold ebotAddEvent Slots.peek at hret
  rw [if_neg hkinds, if_neg hfreed] at hret
  cases hret

/-- The return value of an add of a supported kind to tables that are
allocated. -/
theorem returnsTrue_iff_of_live
    (hsized : Sized eb)
    (hlive : eb.read_waits.live = true)
    (hsup : eb.Supports e)
    (hd : e.IsFor d)
    (hlt : (e.fd : Nat) < eb.wait_sz) :
    ReturnsTrue eb env p e d ↔ eb.slot d e.fd = none ∨ eb.slot d e.fd = some p ∨
      env.ctl = false ∨ eb.epoll e.fd = none := by
  have hadd : ebotAddEvent env eb p e = _ :=
    ebotAddEvent_covered hsup (hsized.covers hlive hlt) hlt
  dsimp only at hadd
  -- for a slot that is taken the kernel refuses in exactly two cases
  have hctl : ∀ {o}, epollCtl env.ctl (addOp (eb.slot .read e.fd) (eb.slot .write e.fd))
      e.fd (addMask e.kide (eb.slot .read e.fd) (eb.slot .write e.fd)) eb.epoll = o →
      eb.slot d e.fd ≠ none → (o = none ↔ env.ctl = false ∨ eb.epoll e.fd = none) := by
    rintro o rfl htaken
    rw [addOp_of_slot htaken, epollCtl_mod_eq_none]
  split at hadd
  · rename_i hk
    refine iff_of_true ⟨-1, eb, hadd, .inr ⟨rfl, fun _ => rfl⟩⟩ ?_
    by_cases hslot : eb.slot d e.fd = none
    · exact .inl hslot
    · exact .inr (.inr ((hctl hk hslot).mp rfl))
  · rename_i k hk
    rw [returnsTrue_iff_of_granted hd hadd]
    constructor
    · exact Or.imp_right .inl
    · rintro (hslot | hslot | hrefused)
      · exact .inl hslot
      · exact .inr hslot
      · by_contra hno
        have := (hctl hk fun h => hno (.inl h)).mpr hrefused
        cases this

/-- **Return value of an add.** -/
theorem returnsTrue_iff_of_sized
    (hsized : Sized eb)
    (hd : e.IsFor d)
    (hlt : (e.fd : Nat) < eb.wait_sz) :
    ReturnsTrue eb env p e d ↔ StoredOrRefused eb env p e d := by
  by_cases hsup : eb.Supports e
  · by_cases hlive : eb.read_waits.live = true
    · rw [returnsTrue_iff_of_live hsized hlive hsup hd hlt]
      exact ⟨fun h _ => ⟨hlive, h⟩, fun h => (h hsup).2⟩
    · exact iff_of_false (not_returnsTrue_of_freed hsup hlive) fun h => hlive (h hsup).1
  · refine iff_of_true ?_ fun h => absurd h hsup
    exact ⟨-1, eb, ebotAddEvent_of_not_supports hsup, .inr ⟨rfl, fun _ => rfl⟩⟩

end Add

/-- **What a return value says.**  For every base that any calls lead to and
every event of `event_read` or `event_write` on a descriptor below `wait_sz`: the
return value says what has become of the event exactly when the event is stored
or refused. -/
theorem add_event_returns_true_iff
    {κ α : Type}
    (kides : Kides)
    (eb : EbotBase)
    (hreach : Reachable (WaitTables.step (κ := κ) (α := α)) (ebotNew kides) eb)
    (env : AddEnv)
    (p : Nat)
    (e : Event κ α)
    (d : Dir)
    (hd : e.IsFor d)
    (hlt : (e.fd : Nat) < eb.wait_sz) :
    ReturnsTrue eb env p e d ↔ StoredOrRefused eb env p e d :=
  returnsTrue_iff_of_sized (sized_of_reach hreach) hd hlt

/-- The descriptor 7 in a new base. -/
theorem add_event_returns_true_iff_seven :
    ReturnsTrue (ebotNew ⟨true, true⟩) (.strict true) 1 (eventRead 7 (some ()) ()) .read :=
  (add_event_returns_true_iff ⟨true, true⟩ _ .start (.strict true) 1
    (eventRead 7 (some ()) ()) .read rfl (by decide)).mpr fun _ => ⟨rfl, .inl rfl⟩

/-- A second read event on the descriptor 7: the add returns 0, and the slot
still holds the first one. -/
theorem not_add_event_returns_true :
    ¬ ∀ (kides : Kides) (eb : EbotBase),
      Reachable (WaitTables.step (κ := Unit) (α := Unit)) (ebotNew kides) eb →
      ∀ (env : AddEnv) (p : Nat) (e : Event Unit Unit) (d : Dir),
        e.IsFor d → (e.fd : Nat) < eb.wait_sz → ReturnsTrue eb env p e d := by
  intro hall
  have hfirst : Reachable WaitTables.step (ebotNew ⟨true, true⟩) _ :=
    Reach.start.next (a := readSeven true 1) trivial rfl
  obtain ⟨ret, eb', hret, hslot⟩ := hall ⟨true, true⟩ _ hfirst (.strict true) 2
    (eventRead 7 (some ()) ()) .read rfl (by decide)
  cases hret
  rcases hslot with ⟨-, hown, -⟩ | ⟨hneg, -⟩
  · cases hown
  · cases hneg

/-! ## A growth that fails -/

/-- What a growth that returns -1 should leave: both tables allocated, with the
elements there were. -/
structure Intact (eb eb' : EbotBase) : Prop where
  wait_sz : eb'.wait_sz = eb.wait_sz
  live : ∀ d, (eb'.waits d).live = true
  size : ∀ d, eb'.wait_sz ≤ (eb'.waits d).size
  slots : ∀ d i, i < eb.wait_sz → eb'.slot d i = eb.slot d i

/-- The growth does not fail halfway: if it is made, and the first `realloc`
succeeds, so does the second. -/
def NotHalfway (eb : EbotBase) : Call κ α → Prop
  | .add env _ e => Grows eb e → env.reallocR = true → env.reallocW = true
  | .del _ _ => True

/-- Later calls find both tables allocated: adds and removals below `wait_sz`
return, so does the collection of reports below it, and the base can be
destroyed. -/
structure Usable (κ α : Type) (eb : EbotBase) : Prop where
  call : ∀ c : Call κ α, Proper eb c → ∃ o, c.make eb = .ok o
  loop : ∀ (ev : Nat → Event κ α) (reps : List Report),
    (∀ rep ∈ reps, rep.fd < eb.wait_sz) → ∃ o, ebotLoopCollect eb ev reps = .ok o
  destroy : ebotDestroy eb = .ok ()

section Growth

variable {eb eb' : EbotBase} {env : AddEnv} {e : Event κ α} {fd : Nat} {d : Dir}

/-- A growth that returns -1 leaves everything intact exactly when the first
`realloc` failed. -/
theorem intact_iff
    (hsized : Sized eb)
    (hres : resizeEpollEvents env eb = .ok (-1, eb')) :
    Intact eb eb' ↔ env.reallocR = false := by
  obtain ⟨hlive, hresizes⟩ := resizeEpollEvents_resizes hres
  cases hresizes with
  | refused hfirst =>
      refine iff_of_true ⟨rfl, ?_, ?_, fun _ _ _ => rfl⟩ hfirst
      · intro d
        cases d with
        | read => exact hlive
        | write => exact hsized.live
      · intro d
        cases d with
        | read => exact hsized.read.ge
        | write => exact hsized.write.ge
  | halfway hfirst =>
      refine iff_of_false ?_ (by simp [hfirst])
      intro h
      cases h.live .read

/-- A growth that does not fail halfway leaves `read_waits` allocated. -/
theorem growFor_live
    (hlive : eb.read_waits.live = true)
    (hhalf : eb.wait_sz ≤ fd → env.reallocR = true → env.reallocW = true)
    (hg : growFor env eb fd = .ok eb') :
    eb'.read_waits.live = true := by
  rcases growFor_resizes hg with ⟨-, rfl⟩ | ⟨hle, -, ret, hres⟩
  · exact hlive
  · cases hres with
    | refused => exact hlive
    | halfway hfirst hsecond =>
        rw [hhalf hle hfirst] at hsecond
        cases hsecond
    | doubled => rfl

/-- One call of the run. -/
theorem InterestSet.Whole.step_notHalfway
    {c : Call κ α}
    (h : Whole eb)
    (hhalf : NotHalfway eb c)
    (hstep : WaitTables.step eb c = .ok eb') :
    Whole eb' := by
  refine ⟨h.sized.step hstep, ?_⟩
  obtain ⟨ret, hmake⟩ := step_eq_ok.mp hstep
  cases c with
  | add env p e =>
      simp only [Call.make] at hmake
      unfold ebotAddEvent at hmake
      split at hmake
      · cases hmake
        exact h.live
      rename_i hsup
      obtain ⟨r, -, hmake⟩ := bind_eq_ok.mp hmake
      obtain ⟨w, -, hmake⟩ := bind_eq_ok.mp hmake
      dsimp only at hmake
      obtain ⟨eb₁, hg, hmake⟩ := bind_eq_ok.mp hmake
      have hlive₁ : eb₁.read_waits.live = true :=
        growFor_live h.live (fun hle => hhalf ⟨not_not.mp hsup, hle⟩) hg
      split at hmake
      · cases hmake
        exact hlive₁
      · obtain ⟨rd, hrd, hmake⟩ := bind_eq_ok.mp hmake
        obtain ⟨wr, -, hmake⟩ := bind_eq_ok.mp hmake
        cases hmake
        exact (Slots.setIf_keeps hrd).2.trans hlive₁
  | del ctl e =>
      simp only [Call.make] at hmake
      unfold ebotDelEvent at hmake
      obtain ⟨w, -, hmake⟩ := bind_eq_ok.mp hmake
      obtain ⟨r, -, hmake⟩ := bind_eq_ok.mp hmake
      dsimp only at hmake
      split at hmake
      · cases hmake
        exact h.live
      · obtain ⟨rd, hrd, hmake⟩ := bind_eq_ok.mp hmake
        obtain ⟨wr, -, hmake⟩ := bind_eq_ok.mp hmake
        cases hmake
        exact (Slots.setIf_keeps hrd).2.trans h.live

theorem whole_of_reach
    {kides : Kides}
    (hreach : Reach (WaitTables.step (κ := κ) (α := α)) NotHalfway (ebotNew kides) eb) :
    Whole eb :=
  hreach.invariant (whole_ebotNew kides) fun _ _ _ h hhalf hstep =>
    h.step_notHalfway hhalf hstep

theorem InterestSet.Whole.usable
    (h : Whole eb) :
    Usable κ α eb where
  call := fun _ hproper => h.returns hproper
  loop := fun ev _ hreps =>
    ebotLoopCollect_returns ev fun rep hmem => h.covers (hreps rep hmem)
  destroy := by
    unfold ebotDestroy
    rw [if_pos h.sized.live, if_pos h.live]
    rfl

end Growth

/-- **A growth that fails.**  For every base that any calls lead to, a growth
that returns -1 leaves the base intact exactly when it was the first `realloc`
that failed; and in every run without a growth that fails halfway the base stays
usable. -/
theorem failed_growth_intact_iff
    {κ α : Type}
    (kides : Kides) :
    (∀ (eb eb' : EbotBase) (env : AddEnv),
      Reachable (WaitTables.step (κ := κ) (α := α)) (ebotNew kides) eb →
      resizeEpollEvents env eb = .ok (-1, eb') →
      (Intact eb eb' ↔ env.reallocR = false)) ∧
    ∀ eb, Reach (WaitTables.step (κ := κ) (α := α)) NotHalfway (ebotNew kides) eb →
      Usable κ α eb := by
  constructor
  · intro eb eb' env hreach hres
    exact intact_iff (sized_of_reach hreach) hres
  · intro eb hreach
    exact (whole_of_reach hreach).usable

/-- A new base whose first growth fails at once. -/
theorem failed_growth_intact_iff_first :
    Intact (ebotNew ⟨true, true⟩) (ebotNew ⟨true, true⟩) ∧
      Usable Unit Unit (ebotNew ⟨true, true⟩) := by
  obtain ⟨hintact, husable⟩ := @failed_growth_intact_iff Unit Unit ⟨true, true⟩
  exact ⟨(hintact _ _ ⟨true, none, false, true⟩ .start rfl).mpr rfl, husable _ .start⟩

/-- The growth of a new base that fails at the second table leaves the first one
freed. -/
theorem not_failed_growth_intact :
    ¬ ∀ (kides : Kides) (eb eb' : EbotBase) (env : AddEnv),
      Reachable (WaitTables.step (κ := Unit) (α := Unit)) (ebotNew kides) eb →
      resizeEpollEvents env eb = .ok (-1, eb') → Intact eb eb' := by
  intro hall
  cases (hall ⟨true, true⟩ _ _ ⟨true, none, true, false⟩ .start rfl).live .read

end Ebot
