/-
**Reference counts.**

Resources have a count, and owners use them: `uses o r` is how many references owner `o` has to
resource `r`. `Balanced count uses held` says that every count is what all owners together use, and the
references `held` by whoever is in the middle of moving some.

* `Balanced.owner` — an owner exchanges references with the one who moves them;
* `Balanced.resource` — references are taken and dropped;
* `sum_update`, `filterMap_update` — a sum and a list over a table of which one entry changes.
-/

import Mathlib.Algebra.BigOperators.Fin
import Mathlib.Algebra.Order.BigOperators.Group.Finset

namespace Tally

/-- A sum over a table of which one entry changes. -/
theorem sum_update {ι β : Type*} [Fintype ι] [DecidableEq ι] (g : β → Int) (h : ι → β) (i : ι)
    (b : β) : ∑ j, g (Function.update h i b j) = ∑ j, g (h j) + (g b - g (h i)) := by
  rw [← Finset.add_sum_erase _ _ (Finset.mem_univ i), ← Finset.add_sum_erase _ (fun j => g (h j))
    (Finset.mem_univ i), Function.update_self]
  have rest : ∑ j ∈ Finset.univ.erase i, g (Function.update h i b j) =
      ∑ j ∈ Finset.univ.erase i, g (h j) :=
    Finset.sum_congr rfl fun j member => by rw [Function.update_of_ne (Finset.ne_of_mem_erase member)]
  rw [rest]
  omega

/-- What a table of which one entry changes holds. -/
theorem filterMap_update {ι β R : Type*} [DecidableEq ι] {items : List ι} (nodup : items.Nodup) {i : ι}
    (member : i ∈ items) (h : ι → β) (b : β) (g : β → Option R) :
    (items.filterMap fun j => g (Function.update h i b j)).Perm
      ((g b).toList ++ (items.erase i).filterMap fun j => g (h j)) := by
  have others : ((items.erase i).filterMap fun j => g (Function.update h i b j)) =
      (items.erase i).filterMap fun j => g (h j) :=
    List.filterMap_congr fun j inside => by
      rw [Function.update_of_ne (nodup.mem_erase_iff.mp inside).1]
  refine ((List.perm_cons_erase member).filterMap _).trans ?_
  rw [← others, List.filterMap_cons, Function.update_self]
  cases g b with
  | none => exact List.Perm.refl _
  | some r => exact List.Perm.refl _

/-- One if the pointer is to the resource. -/
def points {R : Type*} [DecidableEq R] (pointer : Option R) (r : R) : Int :=
  if pointer = some r then 1 else 0

section Points

variable {R : Type*} [DecidableEq R] (pointer : Option R) (r : R)

@[simp] theorem points_none : points none r = 0 := rfl

@[simp] theorem points_self : points (some r) r = 1 := if_pos rfl

theorem points_of_ne {r r' : R} (different : r' ≠ r) : points (some r) r' = 0 :=
  if_neg fun same => different (Option.some.inj same).symm

theorem points_nonneg : 0 ≤ points pointer r := by
  unfold points
  split
  · exact Int.one_nonneg
  · exact le_rfl

end Points

variable {O R : Type*} [Fintype O] {count : R → Int}
  {uses : O → R → Int} {held held' : R → Int}

/-- Every count is the number of references of all owners and of the one who moves some. -/
def Balanced (count : R → Int) (uses : O → R → Int) (held : R → Int) : Prop :=
  ∀ r, count r = (∑ o, uses o r) + held r

/-- An owner exchanges references with the one who moves them. -/
theorem Balanced.owner [DecidableEq O] (tally : Balanced count uses held) {o : O} {used : R → Int}
    (moved : ∀ r, used r + held' r = uses o r + held r) :
    Balanced count (Function.update uses o used) held' := by
  intro r
  have here := tally r
  have changed := sum_update (fun used : R → Int => used r) uses o used
  have := moved r
  omega

/-- References to a resource are taken, or dropped. -/
theorem Balanced.resource [DecidableEq R] (tally : Balanced count uses held) (r : R) (change : Int) :
    Balanced (Function.update count r (count r + change)) uses
      fun r' => held r' + change * points (some r) r' := by
  intro r'
  have here := tally r'
  by_cases same : r' = r
  · subst same
    dsimp only
    rw [Function.update_self, points_self]
    omega
  · dsimp only
    rw [Function.update_of_ne same, points_of_ne same]
    omega

theorem Balanced.congr (tally : Balanced count uses held) (same : ∀ r, held' r = held r) :
    Balanced count uses held' :=
  funext same ▸ tally

/-- An owner with references to a resource keeps its count positive. -/
theorem Balanced.positive (tally : Balanced count uses fun _ => 0) (nonneg : ∀ o r, 0 ≤ uses o r) {o : O}
    {r : R} (used : 0 < uses o r) : 0 < count r := by
  have le := Finset.single_le_sum (fun o _ => nonneg o r) (Finset.mem_univ o)
  have here := tally r
  dsimp only at le here
  omega

end Tally
