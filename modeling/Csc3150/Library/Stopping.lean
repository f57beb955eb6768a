/-
**Loops that come to their end.**

Where every condition has become false for good, a thread that is past its check performs its
section once more, and each thread leaves its loop at the next check.

* `Closes` — conditions that are false, and stay so;
* `Closes.run_rest` — a run takes the steps that are left to the threads, no more;
* `Closes.run_sections` — how often a thread performs its section;
* `can_step` — a thread that has not returned can go on.
-/

import Csc3150.Library.Monitor
import Mathlib.Algebra.BigOperators.Group.Finset.Basic
import Mathlib.Data.Fintype.BigOperators

namespace Monitor

open Transition

variable {Thread Input Shared : Type}

/-- The steps that a thread takes until its end, where its condition is false. -/
def Phase.rest : Phase → Nat
  | .checking => 1
  | .inside => 2
  | .returned => 0

/-- The sections among them. -/
def Phase.sections : Phase → Nat
  | .checking => 0
  | .inside => 1
  | .returned => 0

theorem Phase.rest_le (phase : Phase) : phase.rest ≤ 2 := by
  cases phase <;> decide

theorem Phase.sections_le (phase : Phase) : phase.sections ≤ 1 := by
  cases phase <;> decide

variable [DecidableEq Thread]

/-- Is this a section of the thread? -/
def Label.sectionOf (thread : Thread) : Label Thread Input → Bool
  | .check _ => false
  | .body other _ => decide (other = thread)

/-- How often a thread performs its section. -/
def sections (thread : Thread) (labels : List (Label Thread Input)) : Nat :=
  labels.countP (Label.sectionOf thread)

/-- The steps until all threads are at their end. -/
def State.rest [Fintype Thread] (s : State Thread Shared) : Nat := ∑ thread, (s.phase thread).rest

namespace Loops

variable {loops : Loops Thread Input Shared} {s s' : State Thread Shared}
  {label : Label Thread Input} {labels : List (Label Thread Input)} {holds : Shared → Prop}

/-- Every condition is false, and stays so. -/
structure Closes (loops : Loops Thread Input Shared) (holds : Shared → Prop) : Prop where
  kept : ∀ thread input shared shared', holds shared →
    loops.body thread input shared = some shared' → holds shared'
  closed : ∀ shared, holds shared → ∀ thread, loops.check thread shared = false

/-- A step moves one thread towards its end. -/
theorem Closes.step_phase (closes : loops.Closes holds) (here : holds s.shared)
    (step : loops.Step s label s') :
    (∃ thread, label = .check thread ∧ s.phase thread = .checking ∧
      s'.phase = Function.update s.phase thread .returned) ∨
    ∃ thread input, label = .body thread input ∧ s.phase thread = .inside ∧
      s'.phase = Function.update s.phase thread .checking := by
  cases label with
  | check thread =>
    rw [Step, next] at step
    split_ifs at step with head closed
    · rw [closes.closed _ here] at closed
      cases closed
    · cases step
      exact Or.inl ⟨thread, rfl, head, rfl⟩
  | body thread input =>
    rw [Step, next] at step
    split_ifs at step with inside
    obtain ⟨shared, -, rfl⟩ := Option.map_eq_some_iff.mp step
    exact Or.inr ⟨thread, input, rfl, inside, rfl⟩

theorem rest_update [Fintype Thread] {thread : Thread} {phase : Phase}
    (procs : s'.phase = Function.update s.phase thread phase)
    (less : phase.rest + 1 = (s.phase thread).rest) : s'.rest + 1 = s.rest := by
  have others : ∑ other ∈ Finset.univ.erase thread, (s'.phase other).rest =
      ∑ other ∈ Finset.univ.erase thread, (s.phase other).rest :=
    Finset.sum_congr rfl fun other member => by
      rw [procs, Function.update_of_ne (Finset.ne_of_mem_erase member)]
  rw [State.rest, State.rest, ← Finset.add_sum_erase _ _ (Finset.mem_univ thread),
    ← Finset.add_sum_erase _ _ (Finset.mem_univ thread), others, procs, Function.update_self,
    ← less]
  exact Nat.add_right_comm _ _ _

theorem Closes.step_rest [Fintype Thread] (closes : loops.Closes holds) (here : holds s.shared)
    (step : loops.Step s label s') : s'.rest + 1 = s.rest := by
  rcases closes.step_phase here step with
    ⟨thread, -, head, phase⟩ | ⟨thread, input, -, inside, phase⟩
  · exact rest_update phase (by rw [head]; rfl)
  · exact rest_update phase (by rw [inside]; rfl)

/-- A run takes the steps that are left to the threads, one by one. -/
theorem Closes.run_rest [Fintype Thread] (closes : loops.Closes holds) (start : holds s.shared)
    (run : Run loops.Step s labels s') : labels.length + s'.rest = s.rest := by
  induction run with
  | nil => exact Nat.zero_add _
  | @cons first middle last label labels step _ ih =>
    have there := shared_invariant holds closes.kept start (.cons step (.nil middle))
    rw [List.length_cons, Nat.add_right_comm, ih there, closes.step_rest start step]

/-- A thread that is past its check performs one more section, the others none. -/
theorem Closes.run_sections (closes : loops.Closes holds) (start : holds s.shared)
    (run : Run loops.Step s labels s') (thread : Thread) :
    sections thread labels + (s'.phase thread).sections = (s.phase thread).sections := by
  induction run with
  | nil => exact Nat.zero_add _
  | @cons first middle last label labels step _ ih =>
    have there := shared_invariant holds closes.kept start (.cons step (.nil middle))
    have later := ih there
    rw [sections, List.countP_cons, ← sections, Nat.add_right_comm, later]
    rcases closes.step_phase start step with ⟨mover, rfl, head, phase⟩ |
      ⟨mover, input, rfl, inside, phase⟩ <;> rw [phase, Label.sectionOf]
    · by_cases same : thread = mover
      · rw [same, Function.update_self, head]
        rfl
      · rw [Function.update_of_ne same]
        rfl
    · by_cases same : thread = mover
      · rw [same, Function.update_self, inside, decide_eq_true rfl]
        rfl
      · rw [Function.update_of_ne same, decide_eq_false (Ne.symm same)]
        rfl

/-- A thread that has not returned can go on. -/
theorem can_step {thread : Thread} (ongoing : s.phase thread ≠ .returned) {input : Input}
    (total : (loops.body thread input s.shared).isSome) : ∃ label s', loops.Step s label s' := by
  cases at_phase : s.phase thread with
  | checking => exact ⟨.check thread, _, if_pos at_phase⟩
  | inside =>
    obtain ⟨shared, body⟩ := Option.isSome_iff_exists.mp total
    refine ⟨.body thread input, ⟨shared, Function.update s.phase thread .checking⟩, ?_⟩
    rw [Step, next, if_pos at_phase, body]
    rfl
  | returned => exact absurd at_phase ongoing

end Loops

end Monitor
