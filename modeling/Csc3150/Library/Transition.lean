/-
**Runs of a transition system.**

A system is a relation `step : State → Label → State → Prop`. `Run step s labels s'` says that the
steps with these labels lead from `s` to `s'`.

* `Run.invariant` — what every step preserves holds in every reachable state;
* `Run.simulate` — when an invariant holds and every step is matched by a step of another system on
  the images of its states, every run is matched by a run with the same labels;
* `Run.track` — a run is followed by a value that every step updates;
* `Run.stays_iff` — the runs that stay in good states are those whose steps are all allowed, when one
  step from a good state is good exactly if it is allowed;
* `Run.of_foldlM` — a run that was performed.
-/

import Mathlib.Init

namespace Transition

variable {State Label Abstract : Type*}

/-- The steps labelled `labels`, in order, lead from the first state to the last. -/
inductive Run (step : State → Label → State → Prop) : State → List Label → State → Prop where
  | nil (s : State) : Run step s [] s
  | cons {s middle s' : State} {label : Label} {labels : List Label} (first : step s label middle)
      (rest : Run step middle labels s') : Run step s (label :: labels) s'

namespace Run

variable {step : State → Label → State → Prop} {s middle s' : State} {labels labels' : List Label}

theorem append (first : Run step s labels middle) (second : Run step middle labels' s') :
    Run step s (labels ++ labels') s' := by
  induction first with
  | nil => exact second
  | cons head _ ih => exact .cons head (ih second)

/-- What every step preserves holds in every reachable state. -/
theorem invariant {holds : State → Prop}
    (preserved : ∀ s label s', holds s → step s label s' → holds s') (start : holds s)
    (run : Run step s labels s') : holds s' := by
  induction run with
  | nil => exact start
  | cons first _ ih => exact ih (preserved _ _ _ start first)

theorem mono {weaker : State → Label → State → Prop}
    (weaken : ∀ s label s', step s label s' → weaker s label s') (run : Run step s labels s') :
    Run weaker s labels s' := by
  induction run with
  | nil s => exact .nil s
  | cons first _ ih => exact .cons (weaken _ _ _ first) ih

/-- A run whose labels all satisfy `allowed`. -/
theorem guard {allowed : Label → Prop} (all : ∀ label ∈ labels, allowed label)
    (run : Run step s labels s') : Run (fun s label s' => step s label s' ∧ allowed label)
      s labels s' := by
  induction run with
  | nil s => exact .nil s
  | cons first _ ih =>
    exact .cons ⟨first, all _ List.mem_cons_self⟩ (ih fun label member => all label (.tail _ member))

/-- Every run is matched by a run of the other system with the same labels. -/
theorem simulate {holds : State → Prop} {other : Abstract → Label → Abstract → Prop}
    {image : State → Abstract}
    (preserved : ∀ s label s', holds s → step s label s' → holds s')
    (matched : ∀ s label s', holds s → step s label s' → other (image s) label (image s'))
    (start : holds s) (run : Run step s labels s') : Run other (image s) labels (image s') := by
  induction run with
  | nil s => exact .nil _
  | cons first _ ih =>
    exact .cons (matched _ _ _ start first) (ih (preserved _ _ _ start first))

/-- What relates a value to the state and is kept when both take a step, is kept by runs. -/
theorem track {value : Abstract} {next : Abstract → Label → Abstract}
    {holds : Abstract → State → Prop}
    (preserved : ∀ value s label s', holds value s → step s label s' → holds (next value label) s')
    (start : holds value s) (run : Run step s labels s') : holds (labels.foldl next value) s' := by
  induction run generalizing value with
  | nil => exact start
  | cons first _ ih => exact ih (preserved _ _ _ _ start first)

/-- A run through good states ends in one. -/
theorem good (good : State → Prop) (start : good s)
    (run : Run (fun s label s' => step s label s' ∧ good s') s labels s') : good s' := by
  induction run with
  | nil => exact start
  | cons first _ ih => exact ih first.2

/-- The runs that stay in good states are those whose steps are all allowed. -/
theorem stays_iff (holds good : State → Prop) {allowed : State → Label → Prop}
    (preserved : ∀ s label s', holds s → step s label s' → holds s')
    (exact_step : ∀ s label s', holds s → good s → step s label s' → (good s' ↔ allowed s label))
    (start : holds s) (starts : good s) :
    Run (fun s label s' => step s label s' ∧ good s') s labels s' ↔
      Run (fun s label s' => step s label s' ∧ allowed s label) s labels s' := by
  constructor
  · intro run
    induction run with
    | nil s => exact .nil s
    | cons first _ ih =>
      have allows := (exact_step _ _ _ start starts first.1).mp first.2
      exact .cons ⟨first.1, allows⟩ (ih (preserved _ _ _ start first.1) first.2)
  · intro run
    induction run with
    | nil s => exact .nil s
    | cons first _ ih =>
      have next := (exact_step _ _ _ start starts first.1).mpr first.2
      exact .cons ⟨first.1, next⟩ (ih (preserved _ _ _ start first.1) next)

/-- Performing a step for each label in order, where there is a function for it. -/
theorem of_foldlM {next : State → Label → Option State}
    (sound : ∀ s label s', next s label = some s' → step s label s')
    (performed : labels.foldlM next s = some s') : Run step s labels s' := by
  induction labels generalizing s with
  | nil =>
    cases performed
    exact .nil _
  | cons label rest ih =>
    rw [List.foldlM_cons] at performed
    obtain ⟨middle, first, last⟩ := Option.bind_eq_some_iff.mp performed
    exact .cons (sound _ _ _ first) (ih last)

end Run

end Transition
