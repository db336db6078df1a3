import Mathlib.Data.List.Basic

/-!
# Histories

A history is a list of entries in the order they happened.  `Always P log`
says of every entry that `P` relates it to the entries before it.  A system
that only ever appends to its history keeps such a property as soon as every
entry it appends satisfies `P`.
-/

namespace History

universe u

variable {α : Type u} {P Q : List α → α → Prop} {log new : List α} {x y : α}

/-- Every entry of the history stands in the relation `P` to its past. -/
def Always (P : List α → α → Prop) (log : List α) : Prop :=
  ∀ past x future, log = past ++ x :: future → P past x

theorem always_nil : Always P ([] : List α) := by
  intro past x future h
  simp at h

/-- Appending one entry. -/
theorem Always.append_singleton
    (h : Always P log)
    (hx : P log x) :
    Always P (log ++ [x]) := by
  intro past y future heq
  rcases List.append_eq_append_iff.mp heq with ⟨mid, rfl, hmid⟩ | ⟨mid, rfl, hmid⟩
  · cases mid with
    | nil =>
        simp only [List.nil_append, List.cons.injEq] at hmid
        obtain ⟨rfl, -⟩ := hmid
        simpa using hx
    | cons z mid => simp at hmid
  · cases mid with
    | nil =>
        simp only [List.nil_append, List.cons.injEq] at hmid
        obtain ⟨rfl, -⟩ := hmid
        simpa using hx
    | cons z mid =>
        simp only [List.cons_append, List.cons.injEq] at hmid
        obtain ⟨rfl, -⟩ := hmid
        exact h past y mid rfl

/-- Appending a batch of entries that all satisfy `P` whatever came before. -/
theorem Always.append
    (h : Always P log)
    (hnew : ∀ x ∈ new, ∀ past, P past x) :
    Always P (log ++ new) := by
  induction new generalizing log with
  | nil => simpa using h
  | cons x new ih =>
      have hx : Always P (log ++ [x]) :=
        h.append_singleton (hnew x (by simp) log)
      have hrest := ih hx fun y hy => hnew y (by simp [hy])
      simpa using hrest

/-- An entry of the history satisfies `P` for some past. -/
theorem Always.of_mem
    (h : Always P log)
    (hx : x ∈ log) :
    ∃ past future, log = past ++ x :: future ∧ P past x := by
  obtain ⟨past, future, rfl⟩ := List.append_of_mem hx
  exact ⟨past, future, rfl, h past x future rfl⟩

end History
