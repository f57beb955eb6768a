/-
**Programs that keep something.**

`Keeps holds program` — whatever state the program starts in, if `holds` is true of it and the
program ends, `holds` is true of the state at the end. The rules follow the structure of the
program.
-/

import Csc3150.Library.Program

namespace Program

variable {ε σ α β : Type} {holds : σ → Prop}

/-- If `holds` is true where the program starts, it is true where it ends. -/
def Keeps (holds : σ → Prop) (x : Prog ε σ α) : Prop :=
  ∀ before, holds before → Ensures x before fun _ after => holds after

namespace Keeps

variable {x y : Prog ε σ α} {f : α → Prog ε σ β}

theorem pure (a : α) : Keeps holds (Pure.pure a : Prog ε σ α) := fun _ here => .pure here

theorem bind (first : Keeps holds x) (rest : ∀ a, Keeps holds (f a)) : Keeps holds (x >>= f) :=
  fun before here => (first before here).bind fun a middle there => rest a middle there

theorem ite {condition : Prop} [Decidable condition] (positive : Keeps holds x)
    (negative : Keeps holds y) : Keeps holds (if condition then x else y) :=
  fun before here => .ite (fun _ => positive before here) fun _ => negative before here

theorem forM {ι : Type} {body : ι → Prog ε σ Unit} {items : List ι}
    (turn : ∀ item ∈ items, Keeps holds (body item)) : Keeps holds (items.forM body) :=
  fun _ here => .forM_invariant here fun item member state there => turn item member state there

theorem throw (error : ε) : Keeps holds (throw error : Prog ε σ α) := by
  intro before _ a after run
  cases run

end Keeps

end Program
