import Mathlib.Logic.Function.Basic
import Mathlib.Data.List.Perm.Basic
import Ebot.Library.Transition

/-!
# Channels that may lose their newest item

A labelled machine: a family of queues, one for each key.  An item is taken into the
queue of its key, passed on from the front, or lost while it is the newest.
-/

namespace Channels

open Function Transition

universe u

variable {κ α : Type u}

/-- What happens to an item. -/
inductive Event (κ α : Type u) where
  | taken (k : κ) (x : α)
  | passed (k : κ) (x : α)
  | lost (k : κ) (x : α)
deriving DecidableEq

/-- The items on their way, oldest first. -/
abbrev State (κ α : Type u) : Type u := κ → List α

/-- No item is on its way. -/
def empty : State κ α := fun _ => []

/-- The steps of the channels. -/
inductive Next [DecidableEq κ] : State κ α → Event κ α → State κ α → Prop
  | taken {c : State κ α} {k : κ} {x : α} :
      Next c (.taken k x) (update c k (c k ++ [x]))
  | passed {c : State κ α} {k : κ} {x : α} {rest : List α} :
      c k = x :: rest →
      Next c (.passed k x) (update c k rest)
  | lost {c : State κ α} {k : κ} {x : α} {rest : List α} :
      c k = rest ++ [x] →
      Next c (.lost k x) (update c k rest)

/-- What was taken into the channel of a key. -/
def takenOf [DecidableEq κ] (k : κ) (ls : List (Event κ α)) : List α :=
  ls.filterMap fun
    | .taken k' x => if k' = k then some x else none
    | _ => none

/-- What was passed on from it. -/
def passedOf [DecidableEq κ] (k : κ) (ls : List (Event κ α)) : List α :=
  ls.filterMap fun
    | .passed k' x => if k' = k then some x else none
    | _ => none

/-- What it has lost. -/
def lostOf [DecidableEq κ] (k : κ) (ls : List (Event κ α)) : List α :=
  ls.filterMap fun
    | .lost k' x => if k' = k then some x else none
    | _ => none

variable [DecidableEq κ] {c c' : State κ α} {k : κ} {ls : List (Event κ α)}

theorem takenOf_append
    {ls' : List (Event κ α)} :
    takenOf k (ls ++ ls') = takenOf k ls ++ takenOf k ls' :=
  List.filterMap_append

theorem passedOf_append
    {ls' : List (Event κ α)} :
    passedOf k (ls ++ ls') = passedOf k ls ++ passedOf k ls' :=
  List.filterMap_append

theorem lostOf_append
    {ls' : List (Event κ α)} :
    lostOf k (ls ++ ls') = lostOf k ls ++ lostOf k ls' :=
  List.filterMap_append

/-- What a step does to the channel of a key. -/
theorem Next.channel
    {e : Event κ α}
    (h : Next c e c') :
    passedOf k [e] = [] ∧ lostOf k [e] = [] ∧ c' k = c k ++ takenOf k [e] ∨
      takenOf k [e] = [] ∧ lostOf k [e] = [] ∧ c k = passedOf k [e] ++ c' k ∨
      takenOf k [e] = [] ∧ passedOf k [e] = [] ∧ c k = c' k ++ lostOf k [e] := by
  cases h with
  | @taken k' x =>
      refine .inl ⟨rfl, rfl, ?_⟩
      by_cases hk : k = k'
      · subst hk
        simp [takenOf]
      · simp [takenOf, hk, Ne.symm hk]
  | @passed k' x rest hfront =>
      refine .inr (.inl ⟨rfl, rfl, ?_⟩)
      by_cases hk : k = k'
      · subst hk
        simp [passedOf, hfront]
      · simp [passedOf, hk, Ne.symm hk]
  | @lost k' x rest hback =>
      refine .inr (.inr ⟨rfl, rfl, ?_⟩)
      by_cases hk : k = k'
      · subst hk
        simp [lostOf, hback]
      · simp [lostOf, hk, Ne.symm hk]

/-- What is passed on, followed by what is on its way, keeps the order in which it
was taken. -/
theorem sublist_taken
    (h : Path Next empty ls c) :
    (passedOf k ls ++ c k).Sublist (takenOf k ls) := by
  induction h with
  | nil => simp [passedOf, takenOf, empty]
  | @snoc c c' ls e _ hnext ih =>
      rw [passedOf_append, takenOf_append]
      rcases hnext.channel (k := k) with ⟨hp, -, hc⟩ | ⟨ht, -, hc⟩ | ⟨ht, hp, hc⟩
      · rw [hp, hc, List.append_nil, ← List.append_assoc]
        exact ih.append_right _
      · rw [ht, List.append_nil, List.append_assoc, ← hc]
        exact ih
      · rw [ht, hp, List.append_nil, List.append_nil]
        rw [hc] at ih
        refine List.Sublist.trans ?_ ih
        rw [← List.append_assoc]
        exact List.sublist_append_left _ _

/-- Every item taken is passed on, on its way or lost, and once only. -/
theorem taken_perm
    (h : Path Next empty ls c) :
    (takenOf k ls).Perm (passedOf k ls ++ c k ++ lostOf k ls) := by
  induction h with
  | nil => simp [passedOf, takenOf, lostOf, empty]
  | @snoc c c' ls e _ hnext ih =>
      rw [passedOf_append, takenOf_append, lostOf_append]
      rcases hnext.channel (k := k) with ⟨hp, hl, hc⟩ | ⟨ht, hl, hc⟩ | ⟨ht, hp, hc⟩
      · rw [hp, hl, hc, List.append_nil, List.append_nil, ← List.append_assoc]
        refine (ih.append_right _).trans ?_
        rw [List.append_assoc (passedOf k ls ++ c k), List.append_assoc (passedOf k ls ++ c k)]
        exact List.perm_append_comm.append_left _
      · rw [ht, hl, List.append_nil, List.append_nil, List.append_assoc (passedOf k ls), ← hc]
        exact ih
      · rw [ht, hp, List.append_nil, List.append_nil]
        rw [hc] at ih
        refine ih.trans ?_
        rw [← List.append_assoc (passedOf k ls), List.append_assoc (passedOf k ls ++ c' k)]
        exact List.perm_append_comm.append_left _

/-- A channel that has lost nothing has passed on what it took, in this order. -/
theorem eq_taken_of_lossless
    (h : Path Next empty ls c)
    (hlossless : lostOf k ls = []) :
    passedOf k ls ++ c k = takenOf k ls := by
  refine (sublist_taken h).eq_of_length ?_
  have hperm := taken_perm (k := k) h
  rw [hlossless, List.append_nil] at hperm
  exact hperm.length_eq.symm

end Channels
