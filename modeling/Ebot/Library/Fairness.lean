import Mathlib.Data.Nat.Init
import Mathlib.Order.Nat
import Mathlib.Tactic.Choose
import Mathlib.Tactic.ByContra
import Ebot.Library.Transition

/-!
# Variants, endless runs and weak fairness

A rank that every move of a class lowers bounds how many of them a run can make
(`countP_le_of_rank_of`).  For endless runs, weak fairness towards a class of moves,
and the rules by which one shows that a condition leads to another: what a fair
class of moves brings about (`leadsTo_of_fair`), and induction on a rank
(`leadsTo_of_rank`).
-/

namespace Transition

universe u v w

variable {σ : Type u} {ι : Type v} {ε : Type w}

/-- **Variant rule.**  In a run whose moves of the class lower the rank and whose
other moves do not raise it, the rank bounds how many of the class there are.  `J`
holds all along. -/
theorem countP_le_of_rank_of
    {step : σ → ι → Except ε σ} {J : σ → Prop} {s s' : σ} {as : List ι}
    (own : ι → Bool)
    (rank : σ → Nat)
    (hs : J s)
    (hJ : ∀ s a s', J s → step s a = .ok s' → J s')
    (hown : ∀ s a s', a ∈ as → J s → own a = true → step s a = .ok s' → rank s' < rank s)
    (hother : ∀ s a s', a ∈ as → J s → own a = false → step s a = .ok s' → rank s' ≤ rank s)
    (hrun : run step s as = .ok s') :
    as.countP own + rank s' ≤ rank s := by
  induction as generalizing s with
  | nil =>
      cases hrun
      simp
  | cons a as ih =>
      obtain ⟨t, hstep, hrest⟩ := run_cons_success hrun
      have htail := ih (hJ s a t hs hstep)
        (fun s b s' hb => hown s b s' (List.mem_cons_of_mem a hb))
        (fun s b s' hb => hother s b s' (List.mem_cons_of_mem a hb)) hrest
      rw [List.countP_cons]
      cases ha : own a with
      | true =>
          have hlt := hown s a t List.mem_cons_self hs ha hstep
          rw [if_pos rfl]
          omega
      | false =>
          have hle := hother s a t List.mem_cons_self hs ha hstep
          rw [if_neg (by simp)]
          omega

/-- The rule where nothing need be assumed of the states. -/
theorem countP_le_of_rank
    {step : σ → ι → Except ε σ} {s s' : σ} {as : List ι}
    (own : ι → Bool)
    (rank : σ → Nat)
    (hown : ∀ s a s', a ∈ as → own a = true → step s a = .ok s' → rank s' < rank s)
    (hother : ∀ s a s', a ∈ as → own a = false → step s a = .ok s' → rank s' ≤ rank s)
    (hrun : run step s as = .ok s') :
    as.countP own + rank s' ≤ rank s :=
  countP_le_of_rank_of (J := fun _ => True) own rank trivial (fun _ _ _ _ _ => trivial)
    (fun s a s' ha _ => hown s a s' ha) (fun s a s' ha _ => hother s a s' ha) hrun

/-- An endless run whose moves all satisfy `good`. -/
structure Endless
    (step : σ → ι → Except ε σ)
    (good : σ → ι → Prop)
    (s₀ : σ) where
  state : Nat → σ
  move : Nat → ι
  start : state 0 = s₀
  allowed : ∀ n, good (state n) (move n)
  next : ∀ n, step (state n) (move n) = .ok (state (n + 1))

/-- Some move of the class can be made. -/
def Enabled (step : σ → ι → Except ε σ) (A : ι → Prop) (s : σ) : Prop :=
  ∃ a, A a ∧ ∃ s', step s a = .ok s'

namespace Endless

variable {step : σ → ι → Except ε σ} {good : σ → ι → Prop} {s₀ s s' : σ}

/-- Weak fairness: if from some time on a move of the class can always be made,
one is made. -/
def Fair (r : Endless step good s₀) (A : ι → Prop) : Prop :=
  ∀ n, (∀ m, n ≤ m → Enabled step A (r.state m)) → ∃ m, n ≤ m ∧ A (r.move m)

/-- Whenever `P` holds, `Q` holds then or later. -/
def LeadsTo (r : Endless step good s₀) (P Q : σ → Prop) : Prop :=
  ∀ n, P (r.state n) → ∃ m, n ≤ m ∧ Q (r.state m)

section Rules

variable {r : Endless step good s₀} {A : ι → Prop} {P Q : σ → Prop}

/-- Its states are reached by runs of the same moves. -/
theorem reach (r : Endless step good s₀) (n : Nat) :
    Reach step good s₀ (r.state n) := by
  induction n with
  | zero =>
      rw [r.start]
      exact .start
  | succ n ih => exact ih.next (r.allowed n) (r.next n)

/-- Any part of it is a run. -/
theorem reach_from (r : Endless step good s₀) {n m : Nat} (h : n ≤ m) :
    Reach step good (r.state n) (r.state m) := by
  induction m, h using Nat.le_induction with
  | base => exact .start
  | succ m _ ih => exact ih.next (r.allowed m) (r.next m)

/-- **Fair moves.**  If every move keeps `P` or brings `Q`, every move of a fair
class brings `Q`, and one of the class can be made while `P` holds, then `P`
leads to `Q`.  `J` holds all along. -/
theorem leadsTo_of_fair
    {J : σ → Prop}
    (hfair : r.Fair A)
    (hJ : ∀ n, J (r.state n))
    (hkeep : ∀ s a s', J s → P s → good s a → step s a = .ok s' → P s' ∨ Q s')
    (hmake : ∀ s a s', J s → P s → A a → good s a → step s a = .ok s' → Q s')
    (hable : ∀ s, J s → P s → Enabled step A s) :
    r.LeadsTo P Q := by
  intro n hP
  by_contra hnever
  have hno : ∀ m, n ≤ m → ¬ Q (r.state m) := fun m hm hQ => hnever ⟨m, hm, hQ⟩
  -- then `P` holds for ever, and the fair move comes
  have hall : ∀ m, n ≤ m → P (r.state m) := by
    intro m hm
    induction m, hm using Nat.le_induction with
    | base => exact hP
    | succ m hm ih =>
        rcases hkeep _ _ _ (hJ m) ih (r.allowed m) (r.next m) with hP' | hQ
        · exact hP'
        · exact absurd hQ (hno (m + 1) (by omega))
  obtain ⟨m, hm, hmove⟩ := hfair n fun m hm => hable _ (hJ m) (hall m hm)
  exact hno (m + 1) (by omega)
    (hmake _ _ _ (hJ m) (hall m hm) hmove (r.allowed m) (r.next m))

/-- **Rank induction.** -/
theorem leadsTo_of_rank
    (rank : σ → Nat)
    (h : ∀ k, r.LeadsTo (fun s => P s ∧ rank s = k)
      (fun s => Q s ∨ P s ∧ rank s < k)) :
    r.LeadsTo P Q := by
  intro n hP
  generalize hk : rank (r.state n) = k
  induction k using Nat.strong_induction_on generalizing n with
  | _ k ih =>
      obtain ⟨m, hnm, hQ | ⟨hP', hlt⟩⟩ := h k n ⟨hP, hk⟩
      · exact ⟨m, hnm, hQ⟩
      · obtain ⟨j, hmj, hQ⟩ := ih _ hlt m hP' rfl
        exact ⟨j, Nat.le_trans hnm hmj, hQ⟩

/-- A class that is never enabled is fair. -/
theorem fair_of_not_enabled
    (h : ∀ n, ¬ Enabled step A (r.state n)) :
    r.Fair A :=
  fun n hall => absurd (hall n (Nat.le_refl n)) (h n)

end Rules

/-! ## Building endless runs -/

section Build

instance (s : σ) (a : ι) : Decidable (anyMove s a) :=
  inferInstanceAs (Decidable True)

/-- One move in front. -/
def cons
    (a : ι)
    (hgood : good s a)
    (hstep : step s a = .ok s')
    (r : Endless step good s') :
    Endless step good s where
  state
    | 0 => s
    | n + 1 => r.state n
  move
    | 0 => a
    | n + 1 => r.move n
  start := rfl
  allowed
    | 0 => hgood
    | n + 1 => r.allowed n
  next
    | 0 => by
        change step s a = .ok (r.state 0)
        rw [r.start]
        exact hstep
    | n + 1 => r.next n

theorem cons_fair
    {a : ι} {hgood : good s a} {hstep : step s a = .ok s'} {A : ι → Prop}
    {r : Endless step good s'}
    (h : r.Fair A) :
    (r.cons a hgood hstep).Fair A := by
  intro n hall
  obtain ⟨m, hm, hA⟩ := h n fun m hm => hall (m + 1) (by omega)
  exact ⟨m + 1, by omega, hA⟩

/-- A finite run in front, with the states it passes through; what is fair in the
endless part stays fair. -/
theorem exists_append
    [∀ s a, Decidable (good s a)] {e : ε} {as : List ι}
    (hrun : run (guarded step good e) s as = .ok s')
    (r : Endless step good s') :
    ∃ r' : Endless step good s,
      (∀ A : ι → Prop, r.Fair A → r'.Fair A) ∧
        ∀ bs cs t, as = bs ++ cs → run (guarded step good e) s bs = .ok t →
          r'.state bs.length = t := by
  induction as generalizing s with
  | nil =>
      cases hrun
      refine ⟨r, fun _ => id, fun bs cs t has hbs => ?_⟩
      obtain ⟨rfl, -⟩ := List.append_eq_nil_iff.mp has.symm
      cases hbs
      exact r.start
  | cons a as ih =>
      obtain ⟨t, hguarded, hrest⟩ := run_cons_success hrun
      obtain ⟨hgood, hstep⟩ := guarded_eq_ok hguarded
      obtain ⟨r', hfair, hstates⟩ := ih hrest
      refine ⟨r'.cons a hgood hstep, fun A hA => cons_fair (hfair A hA), ?_⟩
      intro bs cs u has hbs
      cases bs with
      | nil =>
          cases hbs
          rfl
      | cons b bs =>
          obtain ⟨rfl, hrest'⟩ := List.cons.inj has
          obtain ⟨t', ht', hbs⟩ := run_cons_success hbs
          rw [hguarded] at ht'
          cases ht'
          exact hstates bs cs u hrest' hbs

/-- The run that repeats one move, in states that satisfy `K`. -/
theorem exists_repeat
    {K : σ → Prop} {a : ι}
    (hK : ∀ s, K s → good s a ∧ ∃ s', step s a = .ok s' ∧ K s')
    (hs : K s) :
    ∃ r : Endless step good s, ∀ n, K (r.state n) := by
  choose hgood next hnext hkeep using hK
  let walk : Nat → { s : σ // K s } :=
    fun n => n.rec ⟨s, hs⟩ fun _ t => ⟨next t.1 t.2, hkeep t.1 t.2⟩
  exact ⟨⟨fun n => (walk n).1, fun _ => a, rfl, fun n => hgood _ (walk n).2,
    fun n => hnext _ (walk n).2⟩, fun n => (walk n).2⟩

end Build

end Endless

end Transition
