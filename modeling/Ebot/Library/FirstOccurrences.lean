import Mathlib.Data.List.Induction
import Mathlib.Data.List.Nodup

/-!
# First occurrences

`List.eraseDups` keeps the first occurrence of every element, in order.  A queue
to which elements are appended one by one, each only if it is not there yet,
holds the first occurrences of what was offered to it.
-/

namespace FirstOccurrences

universe u

variable {α : Type u} [DecidableEq α] {xs : List α} {x : α}

/-- One more element is offered. -/
theorem eraseDups_append_singleton
    (xs : List α)
    (x : α) :
    (xs ++ [x]).eraseDups =
      if x ∈ xs then xs.eraseDups else xs.eraseDups ++ [x] := by
  rw [List.eraseDups_append]
  by_cases hx : x ∈ xs
  · simp [hx, List.removeAll]
  · simp [hx, List.removeAll, List.eraseDups_cons]

/-- An element that is there already is not offered. -/
theorem eraseDups_append_of_mem
    (hx : x ∈ xs) :
    (xs ++ [x]).eraseDups = xs.eraseDups := by
  rw [eraseDups_append_singleton, if_pos hx]

/-- A new element goes to the end. -/
theorem eraseDups_append_of_not_mem
    (hx : x ∉ xs) :
    (xs ++ [x]).eraseDups = xs.eraseDups ++ [x] := by
  rw [eraseDups_append_singleton, if_neg hx]

/-- Every element is there once. -/
theorem nodup_eraseDups
    (xs : List α) :
    xs.eraseDups.Nodup := by
  induction xs using List.reverseRecOn with
  | nil => exact List.nodup_nil
  | append_singleton xs x ih =>
      by_cases hx : x ∈ xs
      · rw [eraseDups_append_of_mem hx]
        exact ih
      · rw [eraseDups_append_of_not_mem hx]
        refine List.nodup_append.mpr ⟨ih, by simp, ?_⟩
        rintro y hy z hz rfl
        rw [List.mem_singleton] at hz
        subst hz
        exact hx (List.mem_eraseDups.mp hy)

end FirstOccurrences
