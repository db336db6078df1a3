import Mathlib.Algebra.GroupWithZero.Nat
import Mathlib.Data.Fin.Basic

/-!
# How a C step can end

Every modelled function returns `Except Stop`: either the value the C function
returns together with the state it leaves, or the reason why it never returns.
-/

namespace Ebot

/-- Why a computation has no next state. -/
inductive Stop where
  /-- Undefined behaviour: an access through `NULL` or outside a live block. -/
  | fault
  /-- `err_exit`: the message format and its arguments; the process exits. -/
  | errExit (fmt : String) (args : List Int)
  /-- A failed `assert`. -/
  | abort
  /-- The process is ended by `SIGPIPE`. -/
  | sigpipe
  /-- Not a stop of the program: the move cannot be made in this state. -/
  | disabled
deriving DecidableEq

/-- A checked access: no value is undefined behaviour. -/
def orFault {α : Type} : Option α → Except Stop α
  | some a => .ok a
  | none => .error .fault

/-- The move is only possible when `p` holds. -/
def require (p : Prop) [Decidable p] : Except Stop Unit :=
  if p then .ok () else .error .disabled

/-- Descriptor numbers: nonnegative values of a C `int`. -/
abbrev Fd := Fin 2147483648

/-- There is a descriptor 0. -/
instance fdNeZero : NeZero (2147483648 : Nat) := ⟨by decide⟩

section Inversion

variable {α β : Type}

@[simp] theorem orFault_eq_ok
    {o : Option α} {a : α} :
    orFault o = .ok a ↔ o = some a := by
  cases o <;> simp [orFault]

@[simp] theorem require_eq_ok
    {p : Prop} [Decidable p] {u : Unit} :
    require p = .ok u ↔ p := by
  unfold require
  split <;> simp_all

/-- A sequence succeeds iff both halves do. -/
theorem bind_eq_ok
    {x : Except Stop α} {f : α → Except Stop β} {b : β} :
    (x >>= f) = .ok b ↔ ∃ a, x = .ok a ∧ f a = .ok b := by
  cases x with
  | error e =>
      simp [bind, Except.bind]
  | ok a =>
      simp [bind, Except.bind]

@[simp] theorem ok_bind
    {a : α} {f : α → Except Stop β} :
    ((.ok a : Except Stop α) >>= f) = f a := by
  rfl

@[simp] theorem error_bind
    {e : Stop} {f : α → Except Stop β} :
    ((.error e : Except Stop α) >>= f) = .error e := by
  rfl

end Inversion

end Ebot
