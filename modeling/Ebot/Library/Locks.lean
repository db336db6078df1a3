import Mathlib.Logic.Function.Basic
import Mathlib.Data.List.Basic
import Ebot.Library.Transition

/-!
# Calls under a lock

A program is a tree of atomic actions on a shared state.  Threads call programs; a call
takes the lock, runs its actions one at a time, gives the lock back and returns, while
the other threads go on in between.  Whatever the interleaving, the calls have the
effects and the answers they would have one after the other, in the order in which they
gave the lock back, and that order lies between the beginning and the end of each.
-/

namespace Locks

open Function Transition

universe u

/-- A program of atomic actions; what comes after one may depend on the state then. -/
inductive Prog (ε σ α : Type u) : Type u
  | ret (a : α)
  | fail (e : ε)
  | act (f : σ → Except ε σ) (k : σ → Prog ε σ α)

namespace Prog

variable {ε σ α β : Type u} {s s' : σ}

/-- A program that runs alone. -/
def run : Prog ε σ α → σ → Except ε (α × σ)
  | ret a, s => .ok (a, s)
  | fail e, _ => .error e
  | act f k, s =>
      match f s with
      | .ok s => (k s).run s
      | .error e => .error e

/-- One program after another. -/
def bind : Prog ε σ α → (α → Prog ε σ β) → Prog ε σ β
  | ret a, g => g a
  | fail e, _ => fail e
  | act f k, g => act f fun s => (k s).bind g

instance : Monad (Prog ε σ) where
  pure := ret
  bind := bind

/-- The state is read. -/
def get : Prog ε σ σ := act .ok ret

/-- The state is changed. -/
def modify (g : σ → σ) : Prog ε σ PUnit := act (fun s => .ok (g s)) fun _ => ret ⟨⟩

/-- A computation on private data. -/
def lift : Except ε α → Prog ε σ α
  | .ok a => ret a
  | .error e => fail e

@[simp] theorem run_pure
    (a : α) :
    (pure a : Prog ε σ α).run s = .ok (a, s) := by
  rfl

@[simp] theorem run_fail
    (e : ε) :
    (fail e : Prog ε σ α).run s = .error e := by
  rfl

theorem run_bind
    (p : Prog ε σ α) (g : α → Prog ε σ β) (s : σ) :
    (p >>= g).run s = (p.run s).bind fun x => (g x.1).run x.2 := by
  change (p.bind g).run s = _
  induction p generalizing s with
  | ret a => rfl
  | fail e => rfl
  | act f k ih =>
      rw [bind, run, run]
      cases f s with
      | error e => rfl
      | ok s' => exact ih s' s'

@[simp] theorem run_get_bind
    (g : σ → Prog ε σ β) :
    (get >>= g).run s = (g s).run s := by
  rfl

@[simp] theorem run_modify_bind
    (h : σ → σ) (g : PUnit → Prog ε σ β) :
    (modify h >>= g).run s = (g ⟨⟩).run (h s) := by
  rfl

@[simp] theorem run_ite
    (c : Prop) [Decidable c] (p q : Prog ε σ α) :
    (if c then p else q).run s = if c then p.run s else q.run s := by
  split <;> rfl

@[simp] theorem run_lift
    (x : Except ε α) :
    (lift x : Prog ε σ α).run s = x.map fun a => (a, s) := by
  cases x <;> rfl

theorem run_lift_bind
    (x : Except ε α) (g : α → Prog ε σ β) :
    (lift x >>= g).run s = x.bind fun a => (g a).run s := by
  cases x <;> rfl

end Prog

/-! ## Threads and their lock -/

/-- Where a thread is with a call. -/
inductive Place (ε σ γ ρ : Type u) : Type u
  | idle
  | asks (c : γ)
  | inside (c : γ) (p : Prog ε σ ρ)
  | leaves (c : γ) (r : ρ)

/-- What happens: a call begins, it gives the lock back with its answer, it returns. -/
inductive Entry (τ γ ρ : Type u) : Type u
  | called (t : τ) (c : γ)
  | took (t : τ) (c : γ) (r : ρ)
  | returned (t : τ) (c : γ) (r : ρ)

/-- The thread of an entry. -/
def Entry.tid {τ γ ρ : Type u} : Entry τ γ ρ → τ
  | called t _ => t
  | took t _ _ => t
  | returned t _ _ => t

/-- The shared state, the lock and the threads, with the history. -/
structure State (ε σ τ γ ρ : Type u) where
  shared : σ
  owner : Option τ
  place : τ → Place ε σ γ ρ
  log : List (Entry τ γ ρ)

/-- A thread begins a call, or goes on. -/
inductive Move (τ γ : Type u) : Type u
  | call (t : τ) (c : γ)
  | run (t : τ)

/-- Nobody has called. -/
def start {ε σ τ γ ρ : Type u} (s₀ : σ) : State ε σ τ γ ρ :=
  { shared := s₀, owner := none, place := fun _ => .idle, log := [] }

section Machine

variable {ε σ τ γ ρ : Type u} [DecidableEq τ] (body : γ → Prog ε σ ρ)

/-- One step; `none` is a move that cannot be made. -/
def step (s : State ε σ τ γ ρ) : Move τ γ → Except (Option ε) (State ε σ τ γ ρ)
  | .call t c =>
      match s.place t with
      | .idle =>
          .ok { s with place := update s.place t (.asks c), log := s.log ++ [.called t c] }
      | _ => .error none
  | .run t =>
      match s.place t with
      | .idle => .error none
      | .asks c =>
          match s.owner with
          | none =>
              .ok { s with owner := some t, place := update s.place t (.inside c (body c)) }
          | some _ => .error none
      | .inside c (.act f k) =>
          match f s.shared with
          | .ok s' => .ok { s with shared := s', place := update s.place t (.inside c (k s')) }
          | .error e => .error (some e)
      | .inside _ (.fail e) => .error (some e)
      | .inside c (.ret r) =>
          .ok { s with
            owner := none
            place := update s.place t (.leaves c r)
            log := s.log ++ [.took t c r] }
      | .leaves c r =>
          .ok { s with place := update s.place t .idle, log := s.log ++ [.returned t c r] }

/-- A call that runs alone, with its answer. -/
def Alone (s : σ) (x : τ × γ × ρ) (s' : σ) : Prop :=
  (body x.2.1).run s = .ok (x.2.2, s')

/-- The calls that gave the lock back, in that order. -/
def done (log : List (Entry τ γ ρ)) : List (τ × γ × ρ) :=
  log.filterMap fun
    | .took t c r => some (t, c, r)
    | _ => none

/-- The state that the finished calls have left, and what the call inside has done to it
since. -/
structure Serial (s₀ : σ) (s : State ε σ τ γ ρ) (base : σ) : Prop where
  path : Path (Alone body) s₀ (done s.log) base
  free : s.owner = none → s.shared = base
  held : ∀ t c p, s.place t = .inside c p → s.owner = some t
  rest : ∀ t c p, s.place t = .inside c p → (body c).run base = p.run s.shared

/-- What the history says about a thread that is here. -/
def Place.open (t : τ) : Place ε σ γ ρ → List (Entry τ γ ρ)
  | .idle => []
  | .asks c => [.called t c]
  | .inside c _ => [.called t c]
  | .leaves c r => [.called t c, .took t c r]

/-- The entries of a call that has returned. -/
def whole (t : τ) (x : γ × ρ) : List (Entry τ γ ρ) :=
  [.called t x.1, .took t x.1 x.2, .returned t x.1 x.2]

/-- Each thread makes one call after the other, and each gives the lock back between its
beginning and its end. -/
def Sequential (s : State ε σ τ γ ρ) : Prop :=
  ∀ t, ∃ xs : List (γ × ρ),
    s.log.filter (fun x => x.tid = t) = xs.flatMap (whole t) ++ (s.place t).open t

end Machine

section Results

variable {ε σ τ γ ρ : Type u} [DecidableEq τ] {body : γ → Prog ε σ ρ}
variable {s₀ base : σ} {s s' : State ε σ τ γ ρ} {m : Move τ γ} {t : τ} {c : γ} {r : ρ}
variable {good : State ε σ τ γ ρ → Move τ γ → Prop}

omit [DecidableEq τ] in
theorem serial_start :
    Serial body s₀ (start s₀ : State ε σ τ γ ρ) s₀ where
  path := .nil
  free := fun _ => rfl
  held := nofun
  rest := nofun

/-- The thread inside has moved to another place outside. -/
theorem Serial.keep
    {place : Place ε σ γ ρ} {log : List (Entry τ γ ρ)}
    (h : Serial body s₀ s base)
    (hplace : ∀ c p, place ≠ .inside c p)
    (hlog : done log = done s.log) :
    Serial body s₀ { s with place := update s.place t place, log } base := by
  have hold : ∀ t' c p, update s.place t place t' = .inside c p →
      s.place t' = .inside c p := by
    intro t' c p hin
    by_cases ht : t' = t
    · subst ht
      rw [update_self] at hin
      exact absurd hin (hplace c p)
    · rwa [update_of_ne ht] at hin
  refine ⟨?_, h.free, fun t' c p hin => h.held t' c p (hold t' c p hin),
    fun t' c p hin => h.rest t' c p (hold t' c p hin)⟩
  change Path (Alone body) s₀ (done log) base
  rw [hlog]
  exact h.path

/-- A call takes the lock. -/
theorem Serial.take
    (h : Serial body s₀ s base)
    (hfree : s.owner = none) :
    Serial body s₀
      { s with owner := some t, place := update s.place t (.inside c (body c)) } base := by
  have hout : ∀ t' c' p, s.place t' ≠ .inside c' p := by
    intro t' c' p hin
    have howner := h.held t' c' p hin
    rw [hfree] at howner
    cases howner
  refine ⟨h.path, nofun, fun t' c' p hin => ?_, fun t' c' p hin => ?_⟩
  · by_cases ht : t' = t
    · exact congrArg some ht.symm
    · exact absurd ((update_of_ne ht _ _).symm.trans hin) (hout t' c' p)
  · by_cases ht : t' = t
    · subst ht
      change update s.place t' (.inside c (body c)) t' = .inside c' p at hin
      rw [update_self] at hin
      cases hin
      rw [h.free hfree]
    · exact absurd ((update_of_ne ht _ _).symm.trans hin) (hout t' c' p)

omit [DecidableEq τ] in
/-- Only the owner is inside. -/
theorem Serial.eq_owner
    {p p' : Prog ε σ ρ} {t' : τ} {c' : γ}
    (h : Serial body s₀ s base)
    (hin : s.place t = .inside c p)
    (hin' : s.place t' = .inside c' p') :
    t' = t :=
  Option.some.inj ((h.held t' c' p' hin').symm.trans (h.held t c p hin))

/-- The call inside takes one action. -/
theorem Serial.act
    {f : σ → Except ε σ} {k : σ → Prog ε σ ρ} {x : σ}
    (h : Serial body s₀ s base)
    (hin : s.place t = .inside c (.act f k))
    (hf : f s.shared = .ok x) :
    Serial body s₀ { s with shared := x, place := update s.place t (.inside c (k x)) } base := by
  have howner := h.held t c _ hin
  refine ⟨h.path, fun hfree => ?_, fun t' c' p hin' => ?_, fun t' c' p hin' => ?_⟩
  · rw [show s.owner = none from hfree] at howner
    cases howner
  · by_cases ht : t' = t
    · rw [ht]
      exact howner
    · exact h.held t' c' p ((update_of_ne ht _ _).symm.trans hin')
  · by_cases ht : t' = t
    · subst ht
      change update s.place t' (.inside c (k x)) t' = .inside c' p at hin'
      rw [update_self] at hin'
      cases hin'
      rw [h.rest t' c _ hin, Prog.run, hf]
    · exact absurd (h.eq_owner hin ((update_of_ne ht _ _).symm.trans hin')) ht

/-- The call inside gives the lock back. -/
theorem Serial.give
    (h : Serial body s₀ s base)
    (hin : s.place t = .inside c (.ret r)) :
    Serial body s₀
      { s with
        owner := none
        place := update s.place t (.leaves c r)
        log := s.log ++ [.took t c r] } s.shared := by
  have hout : ∀ t' c' p, update s.place t (.leaves c r) t' ≠ .inside c' p := by
    intro t' c' p hin'
    by_cases ht : t' = t
    · subst ht
      rw [update_self] at hin'
      cases hin'
    · exact ht (h.eq_owner hin ((update_of_ne ht _ _).symm.trans hin'))
  refine ⟨?_, fun _ => rfl, fun t' c' p hin' => absurd hin' (hout t' c' p),
    fun t' c' p hin' => absurd hin' (hout t' c' p)⟩
  have hlog : done (s.log ++ [.took t c r]) = done s.log ++ [(t, c, r)] := by
    rw [done, List.filterMap_append]
    rfl
  change Path (Alone body) s₀ (done (s.log ++ [.took t c r])) s.shared
  rw [hlog]
  exact h.path.snoc (h.rest t c _ hin)

omit [DecidableEq τ] in
theorem done_append
    {x : Entry τ γ ρ}
    (hx : ∀ t c r, x ≠ .took t c r)
    (log : List (Entry τ γ ρ)) :
    done (log ++ [x]) = done log := by
  rw [done, List.filterMap_append]
  cases x with
  | took t c r => exact absurd rfl (hx t c r)
  | called t c => exact List.append_nil _
  | returned t c r => exact List.append_nil _

/-- One step. -/
theorem Serial.step
    (h : Serial body s₀ s base)
    (hstep : step body s m = .ok s') :
    ∃ base', Serial body s₀ s' base' := by
  cases m with
  | call t c =>
      rw [Locks.step] at hstep
      split at hstep
      · cases hstep
        exact ⟨base, h.keep nofun (done_append nofun _)⟩
      · cases hstep
  | run t =>
      rw [Locks.step] at hstep
      split at hstep
      · cases hstep
      · split at hstep
        · rename_i hfree
          cases hstep
          exact ⟨base, h.take hfree⟩
        · cases hstep
      · rename_i hin
        split at hstep
        · rename_i hf
          cases hstep
          exact ⟨base, h.act hin hf⟩
        · cases hstep
      · cases hstep
      · rename_i hin
        cases hstep
        exact ⟨_, h.give hin⟩
      · cases hstep
        exact ⟨base, h.keep nofun (done_append nofun _)⟩

/-- **Calls are atomic.**  In every run the finished calls are a run of calls that are
made alone. -/
theorem serial_of_reach
    (hreach : Reach (step body) good (start s₀) s) :
    ∃ base, Serial body s₀ s base := by
  induction hreach with
  | start => exact ⟨s₀, serial_start⟩
  | next _ _ hstep ih =>
      obtain ⟨base, h⟩ := ih
      exact h.step hstep

/-- An action fails only in a call that fails when it is made alone. -/
theorem Serial.fails
    {e : ε}
    (h : Serial body s₀ s base)
    (hstep : Locks.step body s m = .error (some e)) :
    ∃ t c p, s.place t = .inside c p ∧ (body c).run base = .error e := by
  cases m with
  | call t c =>
      rw [Locks.step] at hstep
      split at hstep <;> cases hstep
  | run t =>
      rw [Locks.step] at hstep
      split at hstep
      · cases hstep
      · split at hstep <;> cases hstep
      · rename_i c f k hin
        split at hstep
        · cases hstep
        · rename_i hf
          cases hstep
          refine ⟨t, c, _, hin, ?_⟩
          rw [h.rest t c _ hin, Prog.run, hf]
      · rename_i c e' hin
        cases hstep
        refine ⟨t, c, _, hin, ?_⟩
        rw [h.rest t c _ hin]
        rfl
      · cases hstep
      · cases hstep

theorem sequential_start :
    Sequential (start s₀ : State ε σ τ γ ρ) :=
  fun _ => ⟨[], rfl⟩

/-- The steps of one thread keep what the history says about the others. -/
theorem Sequential.other
    {place : Place ε σ γ ρ} {new : List (Entry τ γ ρ)}
    (h : Sequential s)
    (hplace : s'.place = update s.place t place)
    (hlog : s'.log = s.log ++ new)
    (hnew : ∀ x ∈ new, x.tid = t)
    (hown : ∃ xs : List (γ × ρ),
      s.log.filter (fun x => x.tid = t) ++ new = xs.flatMap (whole t) ++ place.open t) :
    Sequential s' := by
  intro t'
  rw [hplace, hlog, List.filter_append]
  by_cases ht : t' = t
  · subst ht
    obtain ⟨xs, hxs⟩ := hown
    have hall : new.filter (fun x => x.tid = t') = new :=
      List.filter_eq_self.mpr fun x hx => decide_eq_true (hnew x hx)
    exact ⟨xs, by rw [hall, update_self, hxs]⟩
  · obtain ⟨xs, hxs⟩ := h t'
    have hnone : new.filter (fun x => x.tid = t') = [] :=
      List.filter_eq_nil_iff.mpr fun x hx he =>
        ht ((of_decide_eq_true he).symm.trans (hnew x hx))
    exact ⟨xs, by rw [hnone, update_of_ne ht, List.append_nil, hxs]⟩

/-- A thread goes on within its call. -/
theorem Sequential.within
    {place : Place ε σ γ ρ} {new : List (Entry τ γ ρ)}
    (h : Sequential s)
    (hplace : s'.place = update s.place t place)
    (hlog : s'.log = s.log ++ new)
    (hnew : ∀ x ∈ new, x.tid = t)
    (hopen : (s.place t).open t ++ new = place.open t) :
    Sequential s' := by
  obtain ⟨xs, hxs⟩ := h t
  refine h.other hplace hlog hnew ⟨xs, ?_⟩
  rw [hxs, List.append_assoc, hopen]

/-- One step. -/
theorem Sequential.step
    (h : Sequential s)
    (hstep : Locks.step body s m = .ok s') :
    Sequential s' := by
  have hown : ∀ {t : τ}, ∀ x ∈ ([] : List (Entry τ γ ρ)), x.tid = t := nofun
  cases m with
  | call t c =>
      rw [Locks.step] at hstep
      split at hstep
      · rename_i hidle
        cases hstep
        refine h.within rfl rfl (fun x hx => ?_) (by rw [hidle]; rfl)
        rw [List.mem_singleton.mp hx]
        rfl
      · cases hstep
  | run t =>
      rw [Locks.step] at hstep
      split at hstep
      · cases hstep
      · rename_i hasks
        split at hstep
        · cases hstep
          exact h.within rfl (List.append_nil _).symm hown (by rw [hasks]; rfl)
        · cases hstep
      · rename_i hin
        split at hstep
        · cases hstep
          exact h.within rfl (List.append_nil _).symm hown (by rw [hin]; rfl)
        · cases hstep
      · cases hstep
      · rename_i hin
        cases hstep
        refine h.within rfl rfl (fun x hx => ?_) (by rw [hin]; rfl)
        rw [List.mem_singleton.mp hx]
        rfl
      · rename_i c r hleaves
        cases hstep
        obtain ⟨xs, hxs⟩ := h t
        refine h.other rfl rfl (fun x hx => ?_) ⟨xs ++ [(c, r)], ?_⟩
        · rw [List.mem_singleton.mp hx]
          rfl
        · rw [hxs, hleaves, List.flatMap_append, List.append_assoc]
          simp [whole, Place.open]

/-- Every call is answered in its turn. -/
theorem sequential_of_reach
    (hreach : Reach (Locks.step body) good (start s₀) s) :
    Sequential s :=
  hreach.invariant sequential_start fun _ _ _ h _ hstep => h.step hstep

end Results

/-! ## Calls that implement an abstract machine -/

section Refinement

variable {ε σ τ γ ρ α : Type u} [DecidableEq τ] {body : γ → Prog ε σ ρ}
variable {s₀ base : σ} {s s' : State ε σ τ γ ρ} {m : Move τ γ}

/-- The call a thread is making. -/
def Place.current : Place ε σ γ ρ → Option γ
  | .idle => none
  | .asks c => some c
  | .inside c _ => some c
  | .leaves c _ => some c

/-- Only such calls are made. -/
def Makes (allowed : γ → Prop) (_ : State ε σ τ γ ρ) : Move τ γ → Prop
  | .call _ c => allowed c
  | .run _ => True

instance (allowed : γ → Prop) [DecidablePred allowed]
    (s : State ε σ τ γ ρ) (m : Move τ γ) : Decidable (Makes allowed s m) :=
  match m with
  | .call _ c => inferInstanceAs (Decidable (allowed c))
  | .run _ => inferInstanceAs (Decidable True)

/-- Only such calls have been made. -/
structure Made (allowed : γ → Prop) (s : State ε σ τ γ ρ) : Prop where
  current : ∀ t c, (s.place t).current = some c → allowed c
  past : ∀ x ∈ done s.log, allowed x.2.1

theorem Made.goto
    {allowed : γ → Prop} {t : τ} {place : Place ε σ γ ρ}
    (h : Made allowed s)
    (hplace : s'.place = update s.place t place)
    (hcurrent : ∀ c, place.current = some c → allowed c)
    (hdone : ∀ x ∈ done s'.log, x ∈ done s.log ∨ allowed x.2.1) :
    Made allowed s' := by
  refine ⟨fun t' c hc => ?_, fun x hx => (hdone x hx).elim (h.past x) id⟩
  rw [hplace] at hc
  by_cases ht : t' = t
  · subst ht
    rw [update_self] at hc
    exact hcurrent c hc
  · rw [update_of_ne ht] at hc
    exact h.current t' c hc

/-- One step. -/
theorem Made.step
    {allowed : γ → Prop}
    (h : Made allowed s)
    (hgood : Makes allowed s m)
    (hstep : Locks.step body s m = .ok s') :
    Made allowed s' := by
  have hsame : ∀ x ∈ done s.log, x ∈ done s.log ∨ allowed x.2.1 := fun x hx => .inl hx
  cases m with
  | call t c =>
      rw [Locks.step] at hstep
      split at hstep
      · cases hstep
        refine h.goto rfl (fun c' hc => ?_) (by rw [done_append nofun]; exact hsame)
        cases hc
        exact hgood
      · cases hstep
  | run t =>
      rw [Locks.step] at hstep
      split at hstep
      · cases hstep
      · rename_i hasks
        split at hstep
        · cases hstep
          refine h.goto rfl (fun c' hc => h.current t c' ?_) hsame
          rw [hasks]
          exact hc
        · cases hstep
      · rename_i hin
        split at hstep
        · cases hstep
          refine h.goto rfl (fun c' hc => h.current t c' ?_) hsame
          rw [hin]
          exact hc
        · cases hstep
      · cases hstep
      · rename_i c r hin
        cases hstep
        have hcall : allowed c := h.current t c (by rw [hin]; rfl)
        refine h.goto rfl (fun c' hc => ?_) (fun x hx => ?_)
        · cases hc
          exact hcall
        · rw [done, List.filterMap_append] at hx
          refine (List.mem_append.mp hx).imp_right fun hnew => ?_
          rw [List.mem_singleton.mp hnew]
          exact hcall
      · cases hstep
        exact h.goto rfl nofun (by rw [done_append nofun]; exact hsame)

theorem made_of_reach
    {allowed : γ → Prop}
    (hreach : Reach (Locks.step body) (Makes allowed) (start s₀) s) :
    Made allowed s := by
  refine hreach.invariant ⟨nofun, nofun⟩ ?_
  intro s m s' h hgood hstep
  exact h.step hgood hstep

/-- The calls return, and do to the abstract state what the machine allows. -/
def Implements (body : γ → Prog ε σ ρ) (allowed : γ → Prop)
    (Next : α → τ × γ × ρ → α → Prop) (R : σ → α → Prop) : Prop :=
  ∀ s a t c, R s a → allowed c →
    ∃ r s' a', (body c).run s = .ok (r, s') ∧ Next a (t, c, r) a' ∧ R s' a'

omit [DecidableEq τ] in
/-- Calls that are made alone, one after the other. -/
theorem Implements.path
    {allowed : γ → Prop} {Next : α → τ × γ × ρ → α → Prop} {R : σ → α → Prop}
    {a₀ : α} {xs : List (τ × γ × ρ)}
    (h : Implements body allowed Next R)
    (hstart : R s₀ a₀)
    (hpath : Path (Alone body) s₀ xs base)
    (hall : ∀ x ∈ xs, allowed x.2.1) :
    ∃ a, Path Next a₀ xs a ∧ R base a := by
  induction hpath with
  | nil => exact ⟨a₀, .nil, hstart⟩
  | @snoc s' _ xs x _ hx ih =>
      obtain ⟨a, hpath, hrel⟩ := ih fun y hy => hall y (List.mem_append_left _ hy)
      obtain ⟨r, s'', a', hrun, hnext, hrel'⟩ := h s' a x.1 x.2.1 hrel (hall x (by simp))
      obtain ⟨rfl, rfl⟩ := Prod.mk.inj (Except.ok.inj (hrun.symm.trans hx))
      exact ⟨a', hpath.snoc hnext, hrel'⟩

/-- **Rule for calls under a lock.**  When the calls, made alone, implement an abstract
machine, then so they do in every interleaving: the finished calls are a run of the
machine, the shared state stands for its state whenever the lock is free, each thread
makes one call after the other, and no action fails. -/
theorem Implements.of_reach
    {allowed : γ → Prop} {Next : α → τ × γ × ρ → α → Prop} {R : σ → α → Prop} {a₀ : α}
    (h : Implements body allowed Next R)
    (hstart : R s₀ a₀)
    (hreach : Reach (Locks.step body) (Makes allowed) (start s₀) s) :
    (∃ a, Path Next a₀ (done s.log) a ∧ (s.owner = none → R s.shared a)) ∧
      Sequential s ∧
      ∀ m e, Locks.step body s m ≠ .error (some e) := by
  obtain ⟨base, hserial⟩ := serial_of_reach hreach
  have hmade := made_of_reach hreach
  obtain ⟨a, hpath, hrel⟩ := h.path hstart hserial.path hmade.past
  refine ⟨⟨a, hpath, fun hfree => ?_⟩, sequential_of_reach hreach, fun m e hfail => ?_⟩
  · rw [hserial.free hfree]
    exact hrel
  · obtain ⟨t, c, p, hin, hbad⟩ := hserial.fails hfail
    obtain ⟨r, s', a', hrun, -⟩ := h base a t c hrel (hmade.current t c (by rw [hin]; rfl))
    rw [hrun] at hbad
    cases hbad

end Refinement

end Locks
