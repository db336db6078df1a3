import Mathlib.Logic.Basic

/-!
# Runs of a fallible step function

A system is a step function `step : σ → ι → Except ε σ`: from a state and a
move it gives the next state, or an error when the move is not possible (or
ends the run).  This module fixes what a run is and states the induction rules
every safety argument over runs uses.

`Reach step good s₀ s` means that some finite run leads from `s₀` to `s` all of
whose moves satisfy `good` in the state they start from.  Plain reachability is
the case where every move is good.

`Path Next t ls t'` is a run of a labelled machine.  A system whose steps are
matched by such runs, and whose history records their labels, refines the
machine: `Reach.simulates` turns the step-by-step argument into one about whole
histories.

`Matched R x y` compares the outcomes of two systems: both give values related by
`R`, or both fail with the same error.  Systems whose steps match have the same
runs (`Reach.matched`).
-/

namespace Transition

universe u v w x

variable {σ : Type u} {ι : Type v} {ε : Type w}

/-- The run of a list of moves. -/
def run (step : σ → ι → Except ε σ) : σ → List ι → Except ε σ
  | s, [] => .ok s
  | s, a :: as =>
      match step s a with
      | .ok s' => run step s' as
      | .error e => .error e

/-- States reached by runs whose moves all satisfy `good`. -/
inductive Reach
    (step : σ → ι → Except ε σ)
    (good : σ → ι → Prop)
    (s₀ : σ) : σ → Prop
  | start : Reach step good s₀ s₀
  | next {s s' : σ} {a : ι} :
      Reach step good s₀ s →
      good s a →
      step s a = .ok s' →
      Reach step good s₀ s'

/-- The condition that allows every move. -/
def anyMove (_ : σ) (_ : ι) : Prop := True

/-- Plain reachability. -/
abbrev Reachable (step : σ → ι → Except ε σ) (s₀ : σ) : σ → Prop :=
  Reach step anyMove s₀

/-- The step function that refuses the moves `good` does not allow. -/
def guarded
    (step : σ → ι → Except ε σ)
    (good : σ → ι → Prop) [∀ s a, Decidable (good s a)]
    (e : ε) (s : σ) (a : ι) : Except ε σ :=
  if good s a then step s a else .error e

/-- `P` holds of every move of a run in the state it starts from, up to the move
where the run ends. -/
def Along (step : σ → ι → Except ε σ) (P : σ → ι → Prop) : σ → List ι → Prop
  | _, [] => True
  | s, a :: as => P s a ∧ ∀ s', step s a = .ok s' → Along step P s' as

section Runs

variable {step : σ → ι → Except ε σ} {good good' : σ → ι → Prop}
variable {s₀ s s' : σ}

/-- Peel the first move from a successful nonempty run. -/
theorem run_cons_success
    {a : ι} {as : List ι}
    (h : run step s (a :: as) = .ok s') :
    ∃ t : σ, step s a = .ok t ∧ run step t as = .ok s' := by
  simp only [run] at h
  cases ht : step s a with
  | error e =>
      simp [ht] at h
  | ok t =>
      refine ⟨t, rfl, ?_⟩
      simpa [ht] using h

/-- Runs compose. -/
theorem Reach.trans
    (h : Reach step good s₀ s)
    (h' : Reach step good s s') :
    Reach step good s₀ s' := by
  induction h' with
  | start => exact h
  | next _ hgood hstep ih => exact ih.next hgood hstep

/-- A weaker condition on the moves allows the same runs. -/
theorem Reach.mono
    (hgood : ∀ s a, good s a → good' s a)
    (h : Reach step good s₀ s) :
    Reach step good' s₀ s := by
  induction h with
  | start => exact .start
  | next _ hg hstep ih => exact ih.next (hgood _ _ hg) hstep

/-- **Invariant rule.** What holds at the start and is kept by every good move
holds in every state reached. -/
theorem Reach.invariant
    {I : σ → Prop}
    (h : Reach step good s₀ s)
    (hinit : I s₀)
    (hstep : ∀ s a s', I s → good s a → step s a = .ok s' → I s') :
    I s := by
  induction h with
  | start => exact hinit
  | next _ hg hs ih => exact hstep _ _ _ ih hg hs

/-- Invariant rule relative to an invariant `J` already established. -/
theorem Reach.invariant_of
    {J I : σ → Prop}
    (h : Reach step good s₀ s)
    (hJ : ∀ s, Reach step good s₀ s → J s)
    (hinit : I s₀)
    (hstep : ∀ s a s',
      J s → J s' → I s → good s a → step s a = .ok s' → I s') :
    I s := by
  induction h with
  | start => exact hinit
  | next hr hg hs ih =>
      exact hstep _ _ _ (hJ _ hr) (hJ _ (hr.next hg hs)) ih hg hs

/-- A run that succeeds move by move reaches its last state. -/
theorem reachable_of_run
    {as : List ι}
    (h : run step s as = .ok s') :
    Reachable step s s' := by
  induction as generalizing s with
  | nil =>
      simp only [run, Except.ok.injEq] at h
      subst h
      exact .start
  | cons a as ih =>
      obtain ⟨t, hstep, hrun⟩ := run_cons_success h
      exact (Reach.start.next trivial hstep).trans (ih hrun)

/-- A guarded step that succeeds is a good step. -/
theorem guarded_eq_ok
    [∀ s a, Decidable (good s a)] {e : ε} {a : ι}
    (h : guarded step good e s a = .ok s') :
    good s a ∧ step s a = .ok s' := by
  unfold guarded at h
  split at h
  · rename_i hgood
    exact ⟨hgood, h⟩
  · cases h

/-- A guarded run that succeeds only makes good moves. -/
theorem reach_of_guarded_run
    [∀ s a, Decidable (good s a)] {e : ε}
    {as : List ι}
    (h : run (guarded step good e) s as = .ok s') :
    Reach step good s s' := by
  induction as generalizing s with
  | nil =>
      simp only [run, Except.ok.injEq] at h
      subst h
      exact .start
  | cons a as ih =>
      obtain ⟨t, hguarded, hrun⟩ := run_cons_success h
      obtain ⟨hgood, hstep⟩ := guarded_eq_ok hguarded
      exact (Reach.start.next hgood hstep).trans (ih hrun)

/-- It is a run. -/
theorem run_of_guarded_run
    [∀ s a, Decidable (good s a)] {e : ε}
    {as : List ι}
    (h : run (guarded step good e) s as = .ok s') :
    run step s as = .ok s' := by
  induction as generalizing s with
  | nil => exact h
  | cons a as ih =>
      obtain ⟨t, hguarded, hrun⟩ := run_cons_success h
      simp only [run, (guarded_eq_ok hguarded).2]
      exact ih hrun

/-- A run in two parts passes through the state between them. -/
theorem run_append_success
    {as bs : List ι}
    (h : run step s (as ++ bs) = .ok s') :
    ∃ t : σ, run step s as = .ok t ∧ run step t bs = .ok s' := by
  induction as generalizing s with
  | nil => exact ⟨s, rfl, h⟩
  | cons a as ih =>
      obtain ⟨t, hstep, hrun⟩ := run_cons_success h
      obtain ⟨t', has, hbs⟩ := ih hrun
      refine ⟨t', ?_, hbs⟩
      simp [run, hstep, has]

/-- Two runs, one after the other. -/
theorem run_append
    {as bs : List ι} {t : σ}
    (has : run step s as = .ok t)
    (hbs : run step t bs = .ok s') :
    run step s (as ++ bs) = .ok s' := by
  induction as generalizing s with
  | nil =>
      cases has
      exact hbs
  | cons a as ih =>
      obtain ⟨u, hstep, hrest⟩ := run_cons_success has
      simp only [List.cons_append, run, hstep]
      exact ih hrest

/-- One more move in front. -/
theorem Along.cons
    {P : σ → ι → Prop} {a : ι} {as : List ι}
    (hstep : step s a = .ok s')
    (ha : P s a)
    (has : Along step P s' as) :
    Along step P s (a :: as) := by
  refine ⟨ha, ?_⟩
  intro t ht
  rw [hstep] at ht
  cases ht
  exact has

/-- **Exchange rule.** Two conditions that agree in the states of an invariant
hold along the same runs. -/
theorem Along.iff_of_invariant
    {I : σ → Prop} {P Q : σ → ι → Prop}
    (hI : ∀ s a s', I s → good s a → step s a = .ok s' → I s')
    (hPQ : ∀ s a, I s → good s a → (P s a ↔ Q s a))
    {as : List ι}
    (h : I s)
    (hgood : Along step good s as) :
    Along step P s as ↔ Along step Q s as := by
  induction as generalizing s with
  | nil => exact Iff.rfl
  | cons a as ih =>
      obtain ⟨ha, has⟩ := hgood
      refine and_congr (hPQ s a h ha) ?_
      refine forall_congr' fun s' => imp_congr_right fun hstep => ?_
      exact ih (hI s a s' h ha hstep) (has s' hstep)

/-- The run of these moves succeeds and its last state passes a check. -/
def endsIn
    (step : σ → ι → Except ε σ) (s : σ) (as : List ι) (check : σ → Bool) : Bool :=
  match run step s as with
  | .ok s' => check s'
  | .error _ => false

theorem run_of_endsIn
    {as : List ι} {check : σ → Bool}
    (h : endsIn step s as check = true) :
    ∃ s', run step s as = .ok s' ∧ check s' = true := by
  unfold endsIn at h
  split at h
  · rename_i s' hrun
    exact ⟨s', hrun, h⟩
  · cases h

/-- A run that passes its check reaches a state that does. -/
theorem reachable_of_endsIn
    (step : σ → ι → Except ε σ) (s : σ)
    (as : List ι) (check : σ → Bool)
    (h : endsIn step s as check = true) :
    ∃ s', Reachable step s s' ∧ check s' = true := by
  obtain ⟨s', hrun, hcheck⟩ := run_of_endsIn h
  exact ⟨s', reachable_of_run hrun, hcheck⟩

/-- A run in two parts that passes a check after each. -/
theorem reachable_of_endsIn_append
    (step : σ → ι → Except ε σ) (s : σ)
    (as bs : List ι) (check check' : σ → Bool)
    (h : endsIn step s as check = true)
    (h' : endsIn step s (as ++ bs) check' = true) :
    ∃ t t', Reachable step s t ∧ check t = true ∧
      Reachable step t t' ∧ check' t' = true := by
  obtain ⟨t, hrun, hcheck⟩ := run_of_endsIn h
  obtain ⟨t', hrun', hcheck'⟩ := run_of_endsIn h'
  obtain ⟨t₁, has, hbs⟩ := run_append_success hrun'
  rw [hrun] at has
  cases has
  exact ⟨t, t', reachable_of_run hrun, hcheck, reachable_of_run hbs, hcheck'⟩

/-- The same with a condition on the moves. -/
theorem reach_of_endsIn
    (step : σ → ι → Except ε σ)
    (good : σ → ι → Prop) [∀ s a, Decidable (good s a)]
    (s : σ) (e : ε)
    (as : List ι) (check : σ → Bool)
    (h : endsIn (guarded step good e) s as check = true) :
    ∃ s', Reach step good s s' ∧ check s' = true := by
  obtain ⟨s', hrun, hcheck⟩ := run_of_endsIn h
  exact ⟨s', reach_of_guarded_run hrun, hcheck⟩

end Runs

section Paths

variable {τ : Type x} {L : Type x}

/-- Runs of a labelled machine. -/
inductive Path (Next : τ → L → τ → Prop) : τ → List L → τ → Prop
  | nil {t : τ} : Path Next t [] t
  | snoc {t t' t'' : τ} {ls : List L} {l : L} :
      Path Next t ls t' →
      Next t' l t'' →
      Path Next t (ls ++ [l]) t''

/-- One step. -/
theorem Path.single
    {Next : τ → L → τ → Prop} {t t' : τ} {l : L}
    (h : Next t l t') :
    Path Next t [l] t' :=
  Path.snoc .nil h

theorem Path.trans
    {Next : τ → L → τ → Prop} {t t' t'' : τ} {ls ls' : List L}
    (h : Path Next t ls t')
    (h' : Path Next t' ls' t'') :
    Path Next t (ls ++ ls') t'' := by
  induction h' with
  | nil =>
      rw [List.append_nil]
      exact h
  | snoc _ hnext ih =>
      rw [← List.append_assoc]
      exact ih.snoc hnext

/-- **Simulation rule.**  `hist` reads the labels off a state of the system.  If every
step extends them by the labels of a run of the machine between related states, the
whole of them is a run of the machine. -/
theorem Reach.simulates
    {step : σ → ι → Except ε σ} {good : σ → ι → Prop} {s₀ s : σ}
    {Next : τ → L → τ → Prop} {t₀ : τ}
    {J : σ → Prop}
    (hist : σ → List L)
    (R : σ → τ → Prop)
    (h : Reach step good s₀ s)
    (hJ : ∀ s, Reach step good s₀ s → J s)
    (hnil : hist s₀ = [])
    (hinit : R s₀ t₀)
    (hstep : ∀ s a s' t, J s → R s t → good s a → step s a = .ok s' →
      ∃ ls t', hist s' = hist s ++ ls ∧ Path Next t ls t' ∧ R s' t') :
    ∃ t, Path Next t₀ (hist s) t ∧ R s t := by
  induction h with
  | start => exact ⟨t₀, hnil ▸ .nil, hinit⟩
  | next hr hg hs ih =>
      obtain ⟨t, hpath, hrel⟩ := ih
      obtain ⟨ls, t', hhist, hmore, hrel'⟩ := hstep _ _ _ t (hJ _ hr) hrel hg hs
      exact ⟨t', hhist ▸ hpath.trans hmore, hrel'⟩

end Paths

section Matching

variable {α β γ δ : Type v} {ε : Type w} {R R' : α → β → Prop} {S : γ → δ → Prop}
variable {x : Except ε α} {y : Except ε β}

/-- Both outcomes are values, which are related, or the same error. -/
inductive Matched (R : α → β → Prop) : Except ε α → Except ε β → Prop
  | ok {a : α} {b : β} :
      R a b →
      Matched R (.ok a) (.ok b)
  | error {e : ε} : Matched R (.error e) (.error e)

theorem Matched.same (x : Except ε α) :
    Matched Eq x x := by
  cases x with
  | error e => exact .error
  | ok a => exact .ok rfl

theorem Matched.mono
    (hR : ∀ a b, x = .ok a → R a b → R' a b)
    (h : Matched R x y) :
    Matched R' x y := by
  cases h with
  | ok hr => exact .ok (hR _ _ rfl hr)
  | error => exact .error

/-- **Sequence rule.** -/
theorem Matched.bind
    {f : α → Except ε γ} {g : β → Except ε δ}
    (h : Matched R x y)
    (hf : ∀ a b, x = .ok a → R a b → Matched S (f a) (g b)) :
    Matched S (x >>= f) (y >>= g) := by
  cases h with
  | ok hr => exact hf _ _ rfl hr
  | error => exact .error

/-- Two sequences that begin with the same computation. -/
theorem Matched.bind_same
    {f : α → Except ε γ} {g : α → Except ε δ}
    (hf : ∀ a, x = .ok a → Matched S (f a) (g a)) :
    Matched S (x >>= f) (x >>= g) :=
  (Matched.same x).bind fun a _ ha he => he ▸ hf a ha

/-- The same choice on both sides. -/
theorem Matched.ite
    {c : Prop} [Decidable c] {x' : Except ε α} {y' : Except ε β}
    (hthen : Matched R x y)
    (helse : Matched R x' y') :
    Matched R (if c then x else x') (if c then y else y') := by
  split
  · exact hthen
  · exact helse

theorem Matched.map
    {f : α → γ} {g : β → δ}
    (h : Matched R x y)
    (hf : ∀ a b, R a b → S (f a) (g b)) :
    Matched S (x.map f) (y.map g) := by
  cases h with
  | ok hr => exact .ok (hf _ _ hr)
  | error => exact .error

/-- What the second system makes of its value. -/
theorem Matched.map_right
    {S : α → δ → Prop} {g : β → δ}
    (h : Matched R x y)
    (hg : ∀ a b, x = .ok a → R a b → S a (g b)) :
    Matched S x (y.map g) := by
  cases h with
  | ok hr => exact .ok (hg _ _ rfl hr)
  | error => exact .error

theorem Matched.ok_right
    {b : β}
    (h : Matched R x (.ok b)) :
    ∃ a, x = .ok a ∧ R a b := by
  cases h with
  | ok hr => exact ⟨_, rfl, hr⟩

end Matching

/-- **Matching rule.**  If the steps of two systems match in related states, what a run
of the second reaches is related to what a run of the first reaches. -/
theorem Reach.matched
    {τ : Type u} {step : σ → ι → Except ε σ} {step' : τ → ι → Except ε τ}
    {good : σ → ι → Prop} {good' : τ → ι → Prop} {s₀ : σ} {t₀ t : τ}
    (R : σ → τ → Prop)
    (h : Reach step' good' t₀ t)
    (hinit : R s₀ t₀)
    (hgood : ∀ s t a, Reach step good s₀ s → R s t → good' t a → good s a)
    (hstep : ∀ s t a, Reach step good s₀ s → R s t → Matched R (step s a) (step' t a)) :
    ∃ s, Reach step good s₀ s ∧ R s t := by
  induction h with
  | start => exact ⟨s₀, .start, hinit⟩
  | @next t t' a _ hg hs ih =>
      obtain ⟨s, hreach, hrel⟩ := ih
      have hmatched := hstep s t a hreach hrel
      rw [hs] at hmatched
      obtain ⟨s', hok, hrel'⟩ := hmatched.ok_right
      exact ⟨s', hreach.next (hgood _ _ _ hreach hrel hg) hok, hrel'⟩

end Transition
