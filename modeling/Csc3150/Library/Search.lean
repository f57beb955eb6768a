/-
**Bounded search loops.**

`search f count start` is the loop `for(i = start; i < start + count; i++)` whose body returns as
soon as it has an answer; `searchFin` is the same loop over a table. The laws say what an answer and
what the end of the loop mean (`search_eq_some_iff`, `search_eq_none_iff`).
-/

import Mathlib.Data.Fin.Basic
import Mathlib.Order.Basic

namespace Search

variable {α : Type*}

/-- The first answer of `f` at `start, …, start + count - 1`. -/
def search (f : Nat → Option α) : (count start : Nat) → Option α
  | 0, _ => none
  | count + 1, start =>
    match f start with
    | some answer => some answer
    | none => search f count (start + 1)

theorem search_eq_none_iff {f : Nat → Option α} {count start : Nat} :
    search f count start = none ↔ ∀ i, start ≤ i → i < start + count → f i = none := by
  induction count generalizing start with
  | zero => exact ⟨fun _ i lower upper => absurd upper (by omega), fun _ => rfl⟩
  | succ count ih =>
    rw [search]
    cases here : f start with
    | some answer =>
      refine ⟨nofun, fun all => ?_⟩
      rw [all start le_rfl (by omega)] at here
      cases here
    | none =>
      refine ih.trans ⟨fun all i lower upper => ?_, fun all i lower upper => ?_⟩
      · rcases Nat.eq_or_lt_of_le lower with rfl | later
        · exact here
        · exact all i later (by omega)
      · exact all i (by omega) (by omega)

theorem search_eq_some_iff {f : Nat → Option α} {count start : Nat} {answer : α} :
    search f count start = some answer ↔
      ∃ i, start ≤ i ∧ i < start + count ∧ f i = some answer ∧
        ∀ j, start ≤ j → j < i → f j = none := by
  induction count generalizing start with
  | zero => exact ⟨nofun, fun ⟨i, lower, upper, _⟩ => absurd upper (by omega)⟩
  | succ count ih =>
    rw [search]
    cases here : f start with
    | some first =>
      constructor
      · intro equal
        exact ⟨start, le_rfl, by omega, by rw [here]; exact equal, fun j lower upper => by omega⟩
      · rintro ⟨i, lower, upper, found, before⟩
        rcases Nat.eq_or_lt_of_le lower with rfl | later
        · rw [← here, found]
        · rw [before start le_rfl later] at here
          cases here
    | none =>
      refine ih.trans ⟨?_, ?_⟩
      · rintro ⟨i, lower, upper, found, before⟩
        refine ⟨i, by omega, by omega, found, fun j lowerJ upperJ => ?_⟩
        rcases Nat.eq_or_lt_of_le lowerJ with rfl | later
        · exact here
        · exact before j later upperJ
      · rintro ⟨i, lower, upper, found, before⟩
        rcases Nat.eq_or_lt_of_le lower with rfl | later
        · rw [here] at found
          cases found
        · exact ⟨i, later, by omega, found, fun j lowerJ upperJ => before j (by omega) upperJ⟩

/-- The first answer of `f` over the entries of a table, in order. -/
def searchFin {size : Nat} (f : Fin size → Option α) : Option α :=
  search (fun i => if inside : i < size then f ⟨i, inside⟩ else none) size 0

theorem searchFin_eq_none_iff {size : Nat} {f : Fin size → Option α} :
    searchFin f = none ↔ ∀ i, f i = none := by
  rw [searchFin, search_eq_none_iff]
  constructor
  · intro all i
    have here := all i.val (Nat.zero_le _) (by omega)
    rwa [dif_pos i.isLt] at here
  · intro all i _ upper
    rw [dif_pos (by omega)]
    exact all _

theorem searchFin_eq_some_iff {size : Nat} {f : Fin size → Option α} {answer : α} :
    searchFin f = some answer ↔ ∃ i, f i = some answer ∧ ∀ j, j < i → f j = none := by
  rw [searchFin, search_eq_some_iff]
  constructor
  · rintro ⟨i, _, upper, found, before⟩
    rw [dif_pos (by omega)] at found
    refine ⟨⟨i, by omega⟩, found, fun j earlier => ?_⟩
    have here := before j.val (Nat.zero_le _) earlier
    rwa [dif_pos j.isLt] at here
  · rintro ⟨i, found, before⟩
    refine ⟨i.val, Nat.zero_le _, by omega, by rw [dif_pos i.isLt]; exact found, ?_⟩
    intro j _ upper
    rw [dif_pos (by omega)]
    exact before _ upper

end Search
