/-
**Threads that check outside the lock and act inside it.**

Each thread of a `Loops` system is a loop: it looks at the shared state without holding the lock, leaves
the loop when its condition is false, and otherwise performs one section under the lock; other threads
may run between the two. A section has an input of its own, and fails where it is not defined.

* `Run.shared_invariant` — what every section keeps holds of the shared state in every reachable state;
* `Step.eq_of_returned` — threads that have all returned do nothing any more;
* `run_of_performed` — a run that was performed step by step.
-/

import Csc3150.Library.Transition
import Mathlib.Logic.Function.Basic
import Mathlib.Tactic.SplitIfs

namespace Monitor

open Transition

variable {Thread Input Shared : Type}

/-- The condition of every thread's loop and its section. -/
structure Loops (Thread Input Shared : Type) where
  check : Thread → Shared → Bool
  body : Thread → Input → Shared → Option Shared

/-- Where a thread is: at the head of its loop, past the check, or at its end. -/
inductive Phase where
  | checking
  | inside
  | returned
  deriving DecidableEq

structure State (Thread Shared : Type) where
  shared : Shared
  phase : Thread → Phase

inductive Label (Thread Input : Type) where
  | check (thread : Thread)
  | body (thread : Thread) (input : Input)

namespace Loops

variable [DecidableEq Thread] (loops : Loops Thread Input Shared)

/-- The state when the threads have been created. -/
def start (shared : Shared) : State Thread Shared := ⟨shared, fun _ => .checking⟩

/-- The next state, where the step is possible. -/
def next (s : State Thread Shared) : Label Thread Input → Option (State Thread Shared)
  | .check thread =>
    if s.phase thread = .checking then
      let phase := if loops.check thread s.shared then Phase.inside else .returned
      some ⟨s.shared, Function.update s.phase thread phase⟩
    else none
  | .body thread input =>
    if s.phase thread = .inside then
      (loops.body thread input s.shared).map fun shared =>
        ⟨shared, Function.update s.phase thread .checking⟩
    else none

/-- One step of one thread. -/
def Step (s : State Thread Shared) (label : Label Thread Input) (s' : State Thread Shared) : Prop :=
  loops.next s label = some s'

variable {loops} {s s' : State Thread Shared} {label : Label Thread Input}
  {labels : List (Label Thread Input)}

/-- A step is a check, which leaves the shared state alone, or a section. -/
theorem Step.cases (step : loops.Step s label s') :
    (∃ thread, label = .check thread ∧ s'.shared = s.shared) ∨
    ∃ thread input, label = .body thread input ∧ s.phase thread = .inside ∧
      loops.body thread input s.shared = some s'.shared := by
  cases label with
  | check thread =>
    rw [Step, next] at step
    by_cases head : s.phase thread = .checking
    · rw [if_pos head] at step
      cases step
      exact Or.inl ⟨thread, rfl, rfl⟩
    · rw [if_neg head] at step
      cases step
  | body thread input =>
    rw [Step, next] at step
    split_ifs at step with inside
    obtain ⟨shared, run, rfl⟩ := Option.map_eq_some_iff.mp step
    exact Or.inr ⟨thread, input, rfl, inside, run⟩

/-- What every section keeps holds of the shared state in every reachable state. -/
theorem shared_invariant (holds : Shared → Prop)
    (kept : ∀ thread input shared shared', holds shared →
      loops.body thread input shared = some shared' → holds shared')
    (start : holds s.shared) (run : Run loops.Step s labels s') : holds s'.shared := by
  induction run with
  | nil => exact start
  | @cons s middle _ _ _ step _ ih =>
    refine ih ?_
    rcases step.cases with ⟨-, -, same⟩ | ⟨thread, input, -, -, body⟩
    · rwa [same]
    · exact kept thread input _ _ start body

/-- Threads that have all returned do nothing any more. -/
theorem eq_of_returned (returned : ∀ thread, s.phase thread = .returned)
    (run : Run loops.Step s labels s') : s' = s := by
  cases run with
  | nil => rfl
  | @cons _ _ _ label _ first _ =>
    rw [Step, next.eq_def] at first
    cases label <;> simp only [returned] at first <;> cases first

theorem run_of_performed (performed : labels.foldlM loops.next s = some s') :
    Run loops.Step s labels s' :=
  Run.of_foldlM (fun _ _ _ here => here) performed

end Loops

end Monitor
