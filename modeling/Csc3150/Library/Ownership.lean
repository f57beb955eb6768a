/-
**Exact ownership of a pool of items.**

Items of a pool (disk blocks, memory pages) are handed out to owners (slots of a structure,
entries of a table). `Exact ref live` says that the items in use and the items referenced agree:
every live item has an owner, only live items are referenced, and no item has two owners. Nothing
leaks, nothing is freed while referenced, nothing is shared.

* `Exact.attach` — an owner that held nothing takes an item that was not live;
* `Exact.release` — the owners of a family give up all they hold and those items leave the pool;
* `Exact.congr` — only the reference map and the live set matter.
-/

import Mathlib.Data.Set.Insert

namespace Ownership

variable {Owner Item : Type*}

/-- The live items are exactly the referenced ones, each by one owner. -/
structure Exact (ref : Owner → Option Item) (live : Set Item) : Prop where
  unique : ∀ {first second : Owner} {item : Item},
    ref first = some item → ref second = some item → first = second
  live_iff : ∀ item, item ∈ live ↔ ∃ owner, ref owner = some item

namespace Exact

variable {ref after : Owner → Option Item} {live live' : Set Item}

theorem live_of_ref (exact : Exact ref live) {owner : Owner} {item : Item}
    (held : ref owner = some item) : item ∈ live :=
  (exact.live_iff item).mpr ⟨owner, held⟩

theorem congr (exact : Exact ref live) (refs : ∀ owner, after owner = ref owner)
    (lives : ∀ item, item ∈ live' ↔ item ∈ live) : Exact after live' where
  unique := by
    intro first second item held held'
    rw [refs] at held held'
    exact exact.unique held held'
  live_iff item := by
    rw [lives, exact.live_iff]
    simp only [refs]

/-- An owner that held nothing takes an item that was not live. -/
theorem attach (exact : Exact ref live) (owner : Owner) (item : Item) (fresh : item ∉ live)
    (empty : ref owner = none) (taken : after owner = some item)
    (kept : ∀ other, other ≠ owner → after other = ref other)
    (lives : ∀ other, other ∈ live' ↔ other = item ∨ other ∈ live) : Exact after live' where
  unique := by
    have only : ∀ {other : Owner}, after other = some item → other = owner := by
      intro other held
      by_contra different
      rw [kept other different] at held
      exact fresh (exact.live_of_ref held)
    intro first second thing held held'
    by_cases isFirst : first = owner
    · subst isFirst
      rw [taken, Option.some.injEq] at held
      exact (only (held ▸ held')).symm
    · by_cases isSecond : second = owner
      · subst isSecond
        rw [taken, Option.some.injEq] at held'
        exact only (held' ▸ held)
      · rw [kept _ isFirst] at held
        rw [kept _ isSecond] at held'
        exact exact.unique held held'
  live_iff other := by
    rw [lives, exact.live_iff]
    constructor
    · rintro (rfl | ⟨holder, held⟩)
      · exact ⟨owner, taken⟩
      · have different : holder ≠ owner := by
          rintro rfl
          rw [empty] at held
          cases held
        exact ⟨holder, (kept holder different).trans held⟩
    · rintro ⟨holder, held⟩
      by_cases same : holder = owner
      · subst same
        rw [taken, Option.some.injEq] at held
        exact Or.inl held.symm
      · exact Or.inr ⟨holder, (kept holder same).symm.trans held⟩

/-- A family of owners gives up what it holds, and exactly those items leave the pool. -/
theorem release (exact : Exact ref live) (gives : Owner → Prop)
    (gone : ∀ owner, gives owner → after owner = none)
    (kept : ∀ owner, ¬ gives owner → after owner = ref owner)
    (lives : ∀ item, item ∈ live' ↔ item ∈ live ∧ ∀ owner, gives owner → ref owner ≠ some item) :
    Exact after live' where
  unique := by
    have stays : ∀ {owner : Owner} {item : Item}, after owner = some item →
        ref owner = some item := by
      intro owner item held
      by_cases giving : gives owner
      · rw [gone owner giving] at held
        cases held
      · rwa [kept owner giving] at held
    intro first second item held held'
    exact exact.unique (stays held) (stays held')
  live_iff item := by
    rw [lives, exact.live_iff]
    constructor
    · rintro ⟨⟨owner, held⟩, spared⟩
      have keeping : ¬ gives owner := fun giving => spared owner giving held
      exact ⟨owner, (kept owner keeping).trans held⟩
    · rintro ⟨owner, held⟩
      have keeping : ¬ gives owner := by
        intro giving
        rw [gone owner giving] at held
        cases held
      rw [kept owner keeping] at held
      refine ⟨⟨owner, held⟩, fun other giving shared => ?_⟩
      exact keeping (exact.unique held shared ▸ giving)

end Exact

end Ownership
