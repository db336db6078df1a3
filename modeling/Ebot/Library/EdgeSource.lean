import Mathlib.Data.List.Basic
import Mathlib.Logic.Function.Basic

/-!
# Edge-triggered sources

A queue behind an edge-triggered descriptor: the items that wait in it, and
whether an edge is pending, that is, whether something arrived since the
descriptor was last reported.  Only a pending edge makes the next wait report
the descriptor, so items without an edge are stranded until more arrive.
-/

namespace EdgeSource

universe u

/-- Waiting items and the pending edge. -/
structure Source (α : Type u) where
  items : List α
  edge : Bool

namespace Source

variable {α : Type u} {s : Source α} {x : α} {xs : List α}

/-- Nothing waits and no edge is pending. -/
def empty : Source α := ⟨[], false⟩

/-- An item arrives. -/
def arrive (s : Source α) (x : α) : Source α := ⟨s.items ++ [x], true⟩

/-- The descriptor is reported if `c` says so; this consumes the edge. -/
def reportIf (c : Bool) (s : Source α) : Source α :=
  if c then { s with edge := false } else s

/-- One item is taken; the rest `xs` stays. -/
def leave (s : Source α) (xs : List α) : Source α := { s with items := xs }

/-- Waiting items have a pending edge. -/
def Covered (s : Source α) : Prop := s.items ≠ [] → s.edge = true

@[simp] theorem arrive_items : (s.arrive x).items = s.items ++ [x] := rfl

@[simp] theorem reportIf_items
    {c : Bool} :
    (s.reportIf c).items = s.items := by
  cases c <;> rfl

@[simp] theorem leave_items : (s.leave xs).items = xs := rfl

theorem covered_empty : (empty : Source α).Covered :=
  fun h => absurd rfl h

/-- An arrival always leaves an edge. -/
theorem covered_arrive : (s.arrive x).Covered :=
  fun _ => rfl

/-- A source that is not reported stays as it was. -/
theorem reportIf_false : s.reportIf false = s := rfl

/-- Taking an item strands nothing if an edge is pending or nothing is left. -/
theorem covered_leave
    (h : s.edge = true ∨ xs = []) :
    (s.leave xs).Covered := by
  intro hne
  rcases h with h | h
  · exact h
  · exact absurd h hne

end Source

section Family

open Function

universe v

variable {ι : Type v} [DecidableEq ι] {α : Type u}
variable {f : ι → Source α} {i j : ι} {x y : α} {xs : List α}

/-- What waits in one of many sources after an arrival at one of them. -/
theorem mem_update_arrive
    (h : y ∈ (update f j ((f j).arrive x) i).items) :
    y ∈ (f i).items ∨ i = j ∧ y = x := by
  by_cases hi : i = j
  · subst hi
    rw [update_self, Source.arrive_items, List.mem_append, List.mem_singleton] at h
    exact h.imp_right fun hx => ⟨rfl, hx⟩
  · rw [update_of_ne hi] at h
    exact .inl h

/-- What waits after one item was taken from one of them waited before. -/
theorem mem_update_leave
    (hitems : (f j).items = x :: xs)
    (h : y ∈ (update f j ((f j).leave xs) i).items) :
    y ∈ (f i).items := by
  by_cases hi : i = j
  · subst hi
    rw [update_self, Source.leave_items] at h
    exact hitems ▸ List.mem_cons_of_mem _ h
  · rwa [update_of_ne hi] at h

end Family

end EdgeSource
