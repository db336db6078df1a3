import Mathlib.Data.Finset.Basic
import Mathlib.Data.Finset.Lattice.Lemmas
import Ebot.Library.Transition

/-!
# What is acquired and what is released

A ledger is the set of resources held.  A resource is acquired only while it is
not held, and released only while it is: a run of releases that succeeds releases
nothing twice.  Runs of acquisitions and of releases have closed forms, and
releasing in any order what was acquired restores the ledger.
-/

namespace Ledger

open Transition

universe u v

variable {ρ : Type u} {ε : Type v} [DecidableEq ρ]

/-- `r` becomes held. -/
def acquire (e : ε) (held : Finset ρ) (r : ρ) : Except ε (Finset ρ) :=
  if r ∈ held then .error e else .ok (insert r held)

/-- `r` is held no more. -/
def release (e : ε) (held : Finset ρ) (r : ρ) : Except ε (Finset ρ) :=
  if r ∈ held then .ok (held.erase r) else .error e

variable {e e' : ε} {held held' : Finset ρ} {r : ρ} {rs rs' : List ρ}

theorem release_eq_ok :
    release e held r = .ok held' ↔ r ∈ held ∧ held' = held.erase r := by
  unfold release
  by_cases hr : r ∈ held
  · simp [hr, eq_comm]
  · simp [hr]

/-- Acquisitions succeed iff they are of different resources, none of them held. -/
theorem run_acquire :
    run (acquire e) held rs = .ok held' ↔
      rs.Nodup ∧ (∀ r ∈ rs, r ∉ held) ∧ held' = held ∪ rs.toFinset := by
  induction rs generalizing held with
  | nil =>
      rw [run, List.toFinset_nil, Finset.union_empty]
      simp [eq_comm]
  | cons r rs ih =>
      by_cases hr : r ∈ held
      · have hfail : acquire e held r = .error e := if_pos hr
        simp [run, hfail, hr]
      · have hstep : acquire e held r = .ok (insert r held) := if_neg hr
        have hunion : insert r held ∪ rs.toFinset = held ∪ (r :: rs).toFinset := by
          rw [List.toFinset_cons, Finset.insert_union, Finset.union_insert]
        simp only [run, hstep, ih, hunion, List.nodup_cons, List.forall_mem_cons,
          Finset.mem_insert, not_or, hr, not_false_eq_true, true_and]
        constructor
        · rintro ⟨hnodup, hfresh, rfl⟩
          exact ⟨⟨fun hmem => (hfresh r hmem).1 rfl, hnodup⟩,
            fun q hq => (hfresh q hq).2, rfl⟩
        · rintro ⟨⟨hnotin, hnodup⟩, hfresh, rfl⟩
          exact ⟨hnodup, fun q hq => ⟨fun he => hnotin (he ▸ hq), hfresh q hq⟩, rfl⟩

/-- Releases succeed iff they are of different resources, all of them held. -/
theorem run_release :
    run (release e) held rs = .ok held' ↔
      rs.Nodup ∧ (∀ r ∈ rs, r ∈ held) ∧ held' = held \ rs.toFinset := by
  induction rs generalizing held with
  | nil => simp [run, eq_comm]
  | cons r rs ih =>
      by_cases hr : r ∈ held
      · have hstep : release e held r = .ok (held.erase r) := if_pos hr
        have hdiff : held.erase r \ rs.toFinset = held \ (r :: rs).toFinset := by
          rw [List.toFinset_cons, Finset.sdiff_insert, Finset.erase_sdiff_comm]
        simp only [run, hstep, ih, hdiff, List.nodup_cons, List.forall_mem_cons,
          Finset.mem_erase, hr, true_and]
        constructor
        · rintro ⟨hnodup, hheld, rfl⟩
          exact ⟨⟨fun hmem => (hheld r hmem).1 rfl, hnodup⟩,
            fun q hq => (hheld q hq).2, rfl⟩
        · rintro ⟨⟨hnotin, hnodup⟩, hheld, rfl⟩
          exact ⟨hnodup, fun q hq => ⟨fun he => hnotin (he ▸ hq), hheld q hq⟩, rfl⟩
      · have hfail : release e held r = .error e := if_neg hr
        simp [run, hfail, hr]

/-- What is acquired is held. -/
theorem mem_of_run_acquire
    (h : run (acquire e) held rs = .ok held')
    (hr : r ∈ rs) :
    r ∈ held' := by
  obtain ⟨-, -, rfl⟩ := run_acquire.mp h
  exact Finset.mem_union_right _ (List.mem_toFinset.mpr hr)

/-- **Round trip.**  Releasing what was acquired, in any order, restores the ledger. -/
theorem run_release_of_run_acquire
    (h : run (acquire e) held rs = .ok held')
    (hperm : rs'.Perm rs) :
    run (release e') held' rs' = .ok held := by
  obtain ⟨hnodup, hfresh, rfl⟩ := run_acquire.mp h
  refine run_release.mpr ⟨hperm.nodup_iff.mpr hnodup, fun r hr => ?_, ?_⟩
  · exact Finset.mem_union_right _ (List.mem_toFinset.mpr (hperm.mem_iff.mp hr))
  · have hdisjoint : Disjoint held rs.toFinset :=
      Finset.disjoint_left.mpr fun r hr hmem => hfresh r (List.mem_toFinset.mp hmem) hr
    rw [List.toFinset_eq_of_perm _ _ hperm, Finset.union_sdiff_right,
      Finset.sdiff_eq_self_of_disjoint hdisjoint]

end Ledger
