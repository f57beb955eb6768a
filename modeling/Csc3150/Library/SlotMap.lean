/-
**Finite maps in a table of slots.**

A table has a binding, or nothing, in every slot. `Represents table map` says that the bindings of the
table are those of `map`, each key in one slot.

* `Represents.link` — a binding of a new key is stored in a free slot;
* `Represents.clear` — the slot of a binding is freed.
-/

import Mathlib.Logic.Function.Basic

namespace SlotMap

variable {Slot Key Value : Type*}

/-- The table has the bindings of the map, each key in one slot. -/
structure Represents (table : Slot → Option (Key × Value)) (map : Key → Option Value) : Prop where
  exact : ∀ key value, map key = some value ↔ ∃ slot, table slot = some (key, value)
  unique : ∀ {slot slot' key value value'}, table slot = some (key, value) →
    table slot' = some (key, value') → slot' = slot

namespace Represents

variable {table : Slot → Option (Key × Value)} {map : Key → Option Value}

theorem empty : Represents (fun _ : Slot => (none : Option (Key × Value))) fun _ => none where
  exact _ _ := iff_of_false nofun fun found => nomatch found.choose_spec
  unique := nofun

theorem eq_none (represents : Represents table map) {key : Key} :
    map key = none ↔ ∀ slot value, table slot ≠ some (key, value) := by
  constructor
  · intro absent slot value here
    have present := (represents.exact key value).mpr ⟨slot, here⟩
    rw [absent] at present
    cases present
  · intro absent
    cases found : map key with
    | none => rfl
    | some value =>
      obtain ⟨slot, here⟩ := (represents.exact key value).mp found
      exact absurd here (absent slot value)

variable [DecidableEq Slot] [DecidableEq Key]

/-- A new binding is stored in a free slot. -/
theorem link (represents : Represents table map) {slot : Slot} {key : Key} (value : Value)
    (free : table slot = none) (absent : map key = none) :
    Represents (Function.update table slot (some (key, value)))
      (Function.update map key (some value)) := by
  have new := represents.eq_none.mp absent
  have cases : ∀ {slot' key' value'},
      Function.update table slot (some (key, value)) slot' = some (key', value') →
      (slot' = slot ∧ key' = key ∧ value' = value) ∨
        (slot' ≠ slot ∧ key' ≠ key ∧ table slot' = some (key', value')) := by
    intro slot' key' value' here
    by_cases same : slot' = slot
    · subst same
      rw [Function.update_self] at here
      cases here
      exact Or.inl ⟨rfl, rfl, rfl⟩
    · rw [Function.update_of_ne same] at here
      exact Or.inr ⟨same, fun equal => new slot' value' (equal ▸ here), here⟩
  refine ⟨fun key' value' => ?_, fun {slot₁ slot₂ key' value₁ value₂} first second => ?_⟩
  · by_cases same : key' = key
    · subst same
      rw [Function.update_self]
      constructor
      · intro equal
        cases equal
        exact ⟨slot, Function.update_self _ _ _⟩
      · rintro ⟨slot', here⟩
        rcases cases here with ⟨-, -, rfl⟩ | ⟨-, different, -⟩
        · rfl
        · exact absurd rfl different
    · rw [Function.update_of_ne same, represents.exact]
      refine exists_congr fun slot' => ⟨fun here => ?_, fun here => ?_⟩
      · rw [Function.update_of_ne, here]
        rintro rfl
        rw [free] at here
        cases here
      · rcases cases here with ⟨-, equal, -⟩ | ⟨-, -, here⟩
        · exact absurd equal same
        · exact here
  · rcases cases first with ⟨rfl, rfl, rfl⟩ | ⟨-, different, here⟩ <;>
      rcases cases second with ⟨rfl, equal, -⟩ | ⟨-, different', here'⟩
    · rfl
    · exact absurd rfl different'
    · exact absurd equal different
    · exact represents.unique here here'

/-- The slot of a binding is freed. -/
theorem clear (represents : Represents table map) {slot : Slot} {key : Key} {value : Value}
    (here : table slot = some (key, value)) :
    Represents (Function.update table slot none) (Function.update map key none) := by
  have cases : ∀ {slot' key' value'}, Function.update table slot none slot' = some (key', value') ↔
      slot' ≠ slot ∧ table slot' = some (key', value') := by
    intro slot' key' value'
    by_cases same : slot' = slot
    · subst same
      rw [Function.update_self]
      exact iff_of_false nofun fun both => both.1 rfl
    · rw [Function.update_of_ne same]
      exact (and_iff_right same).symm
  refine ⟨fun key' value' => ?_, fun first second =>
    represents.unique (cases.mp first).2 (cases.mp second).2⟩
  simp only [cases]
  by_cases same : key' = key
  · subst same
    rw [Function.update_self]
    exact iff_of_false nofun fun found =>
      found.choose_spec.1 (represents.unique here found.choose_spec.2)
  · rw [Function.update_of_ne same, represents.exact]
    refine exists_congr fun slot' => ⟨fun there => ⟨?_, there⟩, And.right⟩
    rintro rfl
    rw [here] at there
    cases there
    exact same rfl

end Represents

end SlotMap
