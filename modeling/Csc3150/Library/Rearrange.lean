/-
**Programs in another order, and on another state.**

* `Commutes x y` — the two programs may be run in either order, with the same outcome where they end;
* `forM_partition` — a loop may take the items that satisfy a test first, when the bodies of these
  commute with the bodies of the others;
* `Follows image x y` — `y` does to the image of a state what `x` does to the state.
-/

import Csc3150.Library.Program

namespace Program

variable {ε σ τ α β : Type}

/-! ### Order -/

/-- Either order of the two programs ends in the same states. -/
def Commutes (x y : Prog ε σ Unit) : Prop :=
  ∀ before after, (do x; y) before = .ok ((), after) ↔ (do y; x) before = .ok ((), after)

variable {ι : Type} {x y z : Prog ε σ Unit} {body : ι → Prog ε σ Unit} {before after : σ}

theorem sequence_ends : (do x; y) before = .ok ((), after) ↔
    ∃ middle, x before = .ok ((), middle) ∧ y middle = .ok ((), after) := by
  rw [bind_ends]
  constructor
  · rintro ⟨⟨⟩, run⟩
    exact run
  · exact fun run => ⟨(), run⟩

theorem forM_cons (body : ι → Prog ε σ Unit) (item : ι) (rest : List ι) :
    (item :: rest).forM body = (do body item; rest.forM body) := rfl

/-- A loop over the items that satisfy a test skips the others. -/
theorem forM_filter (test : ι → Bool) (body : ι → Prog ε σ Unit) (items : List ι) :
    (items.filter test).forM body = items.forM fun i => if test i then body i else pure () := by
  induction items with
  | nil => rfl
  | cons item rest ih =>
    rw [List.filter_cons, forM_cons]
    split
    · rw [forM_cons, ih]
    · rw [ih]
      rfl

namespace Commutes

theorem symm (first : Commutes x y) : Commutes y x := fun before after => (first before after).symm

theorem pure (x : Prog ε σ Unit) : Commutes x (Pure.pure ()) := by
  intro before after
  rw [sequence_ends, sequence_ends]
  constructor
  · rintro ⟨middle, run, rest⟩
    cases rest
    exact ⟨before, rfl, run⟩
  · rintro ⟨middle, rest, run⟩
    cases rest
    exact ⟨after, run, rfl⟩

theorem bind (first : Commutes x y) (second : Commutes x z) : Commutes x (do y; z) := by
  intro before after
  constructor
  · intro run
    obtain ⟨one, runX, rest⟩ := sequence_ends.mp run
    obtain ⟨two, runY, runZ⟩ := sequence_ends.mp rest
    obtain ⟨one', runY', runX'⟩ := sequence_ends.mp
      ((first before two).mp (sequence_ends.mpr ⟨one, runX, runY⟩))
    obtain ⟨two', runZ', runX''⟩ := sequence_ends.mp
      ((second one' after).mp (sequence_ends.mpr ⟨two, runX', runZ⟩))
    exact sequence_ends.mpr ⟨two', sequence_ends.mpr ⟨one', runY', runZ'⟩, runX''⟩
  · intro run
    obtain ⟨two, rest, runX⟩ := sequence_ends.mp run
    obtain ⟨one, runY, runZ⟩ := sequence_ends.mp rest
    obtain ⟨two', runX', runZ'⟩ := sequence_ends.mp
      ((second one after).mpr (sequence_ends.mpr ⟨two, runZ, runX⟩))
    obtain ⟨one', runX'', runY'⟩ := sequence_ends.mp
      ((first before two').mpr (sequence_ends.mpr ⟨one, runY, runX'⟩))
    exact sequence_ends.mpr ⟨one', runX'', sequence_ends.mpr ⟨two', runY', runZ'⟩⟩

/-- A program commutes with a loop when it commutes with every turn. -/
theorem forM {items : List ι} (turn : ∀ item ∈ items, Commutes x (body item)) :
    Commutes x (items.forM body) := by
  induction items with
  | nil => exact pure x
  | cons item rest ih =>
    exact bind (turn item List.mem_cons_self) (ih fun other member => turn other (.tail _ member))

end Commutes

/-- A loop takes the items that satisfy a test first. -/
theorem forM_partition (test : ι → Bool) (items : List ι)
    (commutes : ∀ a ∈ items, test a = true → ∀ b ∈ items, test b = false →
      Commutes (body a) (body b)) :
    (do (items.filter test).forM body; (items.filter (!test ·)).forM body) before =
        .ok ((), after) ↔
      items.forM body before = .ok ((), after) := by
  induction items generalizing before with
  | nil => exact ((Commutes.pure (Pure.pure () : Prog ε σ Unit)) before after).trans Iff.rfl
  | cons item rest ih =>
    have later : ∀ {before}, _ := fun {before} => @ih before fun a member passes b member' fails =>
      commutes a (.tail _ member) passes b (.tail _ member') fails
    have whole : (item :: rest).forM body before = .ok ((), after) ↔
        ∃ middle, body item before = .ok ((), middle) ∧ rest.forM body middle = .ok ((), after) := by
      rw [forM_cons]
      exact sequence_ends
    rw [whole]
    cases passes : test item
    · have move : Commutes (body item) ((rest.filter test).forM body) :=
        Commutes.forM fun other member => (commutes other
          (.tail _ (List.mem_filter.mp member).1) (List.mem_filter.mp member).2 item
          List.mem_cons_self passes).symm
      rw [List.filter_cons_of_neg (by rw [passes]; exact Bool.false_ne_true),
        List.filter_cons_of_pos (by rw [passes]; rfl)]
      constructor
      · intro run
        obtain ⟨two, firsts, run⟩ := sequence_ends.mp run
        obtain ⟨three, here, lasts⟩ := sequence_ends.mp run
        obtain ⟨one, here', firsts'⟩ := sequence_ends.mp
          ((move before three).mpr (sequence_ends.mpr ⟨two, firsts, here⟩))
        exact ⟨one, here', later.mp (sequence_ends.mpr ⟨three, firsts', lasts⟩)⟩
      · rintro ⟨one, here, run⟩
        obtain ⟨three, firsts, lasts⟩ := sequence_ends.mp (later.mpr run)
        obtain ⟨two, firsts', here'⟩ := sequence_ends.mp
          ((move before three).mp (sequence_ends.mpr ⟨one, here, firsts⟩))
        exact sequence_ends.mpr ⟨two, firsts', sequence_ends.mpr ⟨three, here', lasts⟩⟩
    · rw [List.filter_cons_of_pos passes,
        List.filter_cons_of_neg (by rw [passes]; exact Bool.false_ne_true)]
      constructor
      · intro run
        obtain ⟨two, run, lasts⟩ := sequence_ends.mp run
        obtain ⟨one, here, firsts⟩ := sequence_ends.mp run
        exact ⟨one, here, later.mp (sequence_ends.mpr ⟨two, firsts, lasts⟩)⟩
      · rintro ⟨one, here, run⟩
        obtain ⟨two, firsts, lasts⟩ := sequence_ends.mp (later.mpr run)
        exact sequence_ends.mpr ⟨two, sequence_ends.mpr ⟨one, here, firsts⟩, lasts⟩

/-! ### Images of states -/

/-- On the image of a state the second program does what the first does on the state. -/
def Follows (image : σ → τ) (x : Prog ε σ α) (y : Prog ε τ α) : Prop :=
  ∀ before, y (image before) = (x before).map fun result => (result.1, image result.2)

namespace Follows

variable {image : σ → τ}

theorem pure (a : α) : Follows image (Pure.pure a : Prog ε σ α) (Pure.pure a) := fun _ => rfl

theorem bind {x : Prog ε σ α} {y : Prog ε τ α} {f : α → Prog ε σ β} {g : α → Prog ε τ β}
    (first : Follows image x y) (rest : ∀ a, Follows image (f a) (g a)) :
    Follows image (x >>= f) (y >>= g) := by
  intro before
  rw [bind_apply, bind_apply, first before]
  cases x before with
  | error _ => rfl
  | ok result => exact rest result.1 result.2

theorem forM {items : List ι} {body : ι → Prog ε σ Unit} {body' : ι → Prog ε τ Unit}
    (turn : ∀ item ∈ items, Follows image (body item) (body' item)) :
    Follows image (items.forM body) (items.forM body') := by
  induction items with
  | nil => exact pure ()
  | cons item rest ih =>
    exact bind (turn item List.mem_cons_self) fun _ =>
      ih fun other member => turn other (.tail _ member)

/-- A program that ends on a state ends on its image. -/
theorem ends {x : Prog ε σ α} {y : Prog ε τ α} (follows : Follows image x y) {before after : σ}
    {a : α} (run : x before = .ok (a, after)) : y (image before) = .ok (a, image after) := by
  rw [follows before, run]
  rfl

/-- A program that ends on the image of a state ends on the state. -/
theorem lift {x : Prog ε σ α} {y : Prog ε τ α} (follows : Follows image x y) {before : σ}
    {after : τ} {a : α} (run : y (image before) = .ok (a, after)) :
    ∃ final, x before = .ok (a, final) ∧ image final = after := by
  rw [follows before] at run
  cases ran : x before with
  | error _ =>
    rw [ran] at run
    cases run
  | ok result =>
    rw [ran] at run
    cases run
    exact ⟨result.2, rfl, rfl⟩

end Follows

end Program
