/-
**Fallible computations.**

Sequencing in `Except`: what it means that `x >>= f` succeeds or fails (`bind_eq_ok`,
`bind_eq_error`), and how a known outcome of `x` is fed to `f` (`bind_of_ok`, `bind_of_error`).
`exists_of_any` and `errorOf_eq_some` read an evaluated outcome back.
-/

import Mathlib.Init

namespace Outcome

variable {ε : Type*} {α β : Type} {x : Except ε α} {f : α → Except ε β}

theorem bind_of_ok {a : α} (run : x = .ok a) : x >>= f = f a := by
  rw [run]
  rfl

theorem bind_of_error {error : ε} (run : x = .error error) : x >>= f = .error error := by
  rw [run]
  rfl

/-- A sequence succeeds when both parts do. -/
theorem bind_eq_ok {b : β} : x >>= f = .ok b ↔ ∃ a, x = .ok a ∧ f a = .ok b := by
  cases x with
  | error error => exact ⟨nofun, fun ⟨_, run, _⟩ => nomatch run⟩
  | ok a =>
    refine ⟨fun run => ⟨a, rfl, run⟩, ?_⟩
    rintro ⟨a', run, rest⟩
    cases run
    exact rest

/-- A sequence fails where one of its parts does. -/
theorem bind_eq_error {error : ε} :
    x >>= f = .error error ↔ x = .error error ∨ ∃ a, x = .ok a ∧ f a = .error error := by
  cases x with
  | error stopped =>
    refine ⟨fun run => Or.inl (congrArg Except.error (Except.error.inj run)), ?_⟩
    rintro (run | ⟨_, run, _⟩)
    · exact bind_of_error run
    · cases run
  | ok a =>
    refine ⟨fun run => Or.inr ⟨a, rfl, run⟩, ?_⟩
    rintro (run | ⟨_, run, rest⟩)
    · cases run
    · cases run
      exact rest

/-- The error in which a computation ends. -/
def errorOf : Except ε α → Option ε
  | .ok _ => none
  | .error error => some error

theorem errorOf_eq_some {error : ε} : errorOf x = some error ↔ x = .error error := by
  cases x with
  | ok a => exact ⟨nofun, nofun⟩
  | error _ => exact ⟨fun same => congrArg _ (Option.some.inj same), fun same => by cases same; rfl⟩

/-- An outcome that passes a check. -/
theorem exists_of_any {γ : Type} {x : Except ε (α × γ)} {check : α × γ → Bool}
    (any : x.toOption.any check = true) : ∃ a s, x = .ok (a, s) ∧ check (a, s) = true := by
  cases x with
  | error error => cases any
  | ok result => exact ⟨result.1, result.2, rfl, any⟩

end Outcome
