/-
**How a game ends.**

`game_status_code` never becomes `RUNNING` again, so the threads leave their loops one after the
other.

* `after_decided` — no section takes the outcome back;
* `decided_game_ends` — what is left of a game that is decided.
-/

import Csc3150.Adventure.Ending
import Csc3150.Library.Stopping
import Mathlib.Algebra.Order.BigOperators.Group.Finset

namespace Csc3150.Adventure

open Monitor Transition

variable {g : Game} {wallRand goldRand : Nat → Nat} {labels labels' : List GameLabel}
  {s s' : GameState}

/-- The threads that `main` creates. -/
def created : List Thread :=
  [.printer, .input] ++ (List.finRange NUM_WALLS).map .wall ++ (List.finRange NUM_GOLD).map .gold

theorem mem_created (thread : Thread) : thread ∈ created := by
  cases thread <;> simp [created]

instance : Fintype Thread := .ofList created mem_created

theorem card_thread : Fintype.card Thread = NUM_WALLS + NUM_GOLD + 2 := rfl

/-! ### Sections -/

/-- Collecting wins or leaves the outcome alone. -/
theorem Collects.decided {g g' : Game} (collects : Collects g g')
    (books : g.shards_remaining = left g) (decided : g.game_status_code ≠ .running) :
    g'.game_status_code ≠ .running := by
  by_cases last : 0 < left g ∧ left g' = 0
  · rw [collects.last books last.1 last.2]
    decide
  · rwa [collects.before books last]

/-- No section takes the outcome back. -/
theorem after_decided (accounts : Accounts g) (decided : g.game_status_code ≠ .running)
    (thread : Thread) (key : Option Char) : (after thread key g).game_status_code ≠ .running := by
  cases thread with
  | wall i =>
    show (if _ then Status.lost else _) ≠ _
    split_ifs
    · decide
    · exact decided
  | gold i =>
    show (movedGold i g).game_status_code ≠ _
    rw [movedGold]
    split_ifs
    · show (if _ then Status.won else _) ≠ _
      split_ifs
      · decide
      · exact decided
    · exact decided
  | printer => exact decided
  | input =>
    cases key with
    | none => exact decided
    | some ch =>
      have collects := foldl_picked_collects (List.finRange NUM_GOLD) (walked ch g)
      refine collects.decided accounts.books ?_
      rw [walked]
      dsimp only
      split_ifs
      · decide
      · decide
      · exact decided

theorem decided_closes : threads.Closes fun g =>
    (Placed g ∧ Accounts g) ∧ g.game_status_code ≠ .running where
  kept thread key g g' here body := by
    rw [here.1.1.body] at body
    cases body
    exact ⟨⟨here.1.1.after thread key, (here.1.2.after thread key).1⟩,
      after_decided here.1.2 here.2 thread key⟩
  closed g here thread := by
    cases thread <;> simp [threads, here.2]

/-! ### Runs -/

/-- **A decided game ends.** From a reachable state in which the game is decided, whatever the
schedule and the keys, a run has at most two steps for each thread and at most one section of each;
it can go on until all threads have returned, and `main` prints a line. -/
theorem decided_game_ends (start : init wallRand goldRand = some g)
    (before : Run threads.Step (Loops.start g) labels s)
    (decided : s.shared.game_status_code ≠ .running) (run : Run threads.Step s labels' s') :
    labels'.length ≤ 2 * (NUM_WALLS + NUM_GOLD + 2) ∧
    (∀ thread, sections thread labels' ≤ 1) ∧
    ((∀ label s'', ¬ threads.Step s' label s'') ↔ ∀ thread, s'.phase thread = .returned) ∧
    report s'.shared.game_status_code ∈
      ["You win the game!!", "You lose the game!!", "You exit the game."] := by
  have here := And.intro (reachable_accounts start before) decided
  have there := Loops.shared_invariant _ decided_closes.kept here run
  refine ⟨?_, fun thread => ?_, ⟨fun stuck thread => ?_, fun returned label s'' step => ?_⟩, ?_⟩
  · have steps := decided_closes.run_rest here run
    have most : s.rest ≤ ∑ _ : Thread, 2 := Finset.sum_le_sum fun thread _ => Phase.rest_le _
    rw [Finset.sum_const_nat fun _ _ => rfl, Finset.card_univ, card_thread] at most
    omega
  · have once := decided_closes.run_sections here run thread
    have most := Phase.sections_le (s.phase thread)
    omega
  · by_contra ongoing
    have total : (threads.body thread none s'.shared).isSome := by
      rw [there.1.1.body]
      rfl
    obtain ⟨label, s'', step⟩ := Loops.can_step ongoing total
    exact stuck label s'' step
  · rcases decided_closes.step_phase there step with
      ⟨thread, -, phase, -⟩ | ⟨thread, key, -, phase, -⟩ <;>
    · rw [returned] at phase
      cases phase
  · have settled := there.2
    cases outcome : s'.shared.game_status_code with
    | running => exact absurd outcome settled
    | won => simp [report]
    | lost => simp [report]
    | quit => simp [report]

/-- The key `q` while wall 0 is past its check: it moves once more. -/
theorem decided_game_ends_small :
    ∃ g labels s s', init (fun _ => 8) (fun _ => 0) = some g ∧
      Run threads.Step (Loops.start g) labels s ∧ s.shared.game_status_code = .quit ∧
      Run threads.Step s [.body (.wall 0) none, .check (.wall 0)] s' ∧
      report s'.shared.game_status_code ∈
        ["You win the game!!", "You lose the game!!", "You exit the game."] := by
  let labels : List GameLabel := .check (.wall 0) :: press ['q']
  let labels' : List GameLabel := [.body (.wall 0) none, .check (.wall 0)]
  have performed : ((init (fun _ => 8) (fun _ => 0)).bind fun g =>
      labels.foldlM threads.next (Loops.start g)).any fun s =>
        decide (s.shared.game_status_code = .quit) && (labels'.foldlM threads.next s).isSome := by
    decide +kernel
  obtain ⟨s, found, last⟩ := (Option.any_eq_true _ _).mp performed
  obtain ⟨g, start, run⟩ := Option.bind_eq_some_iff.mp found
  obtain ⟨quit, last⟩ := Bool.and_eq_true_iff.mp last
  have quit := of_decide_eq_true quit
  obtain ⟨s', run'⟩ := Option.isSome_iff_exists.mp last
  have before := Loops.run_of_performed run
  have after := Loops.run_of_performed run'
  have decided : s.shared.game_status_code ≠ .running := by
    rw [quit]
    decide
  exact ⟨g, labels, s, s', start, before, quit, after,
    (decided_game_ends start before decided after).2.2.2⟩

end Csc3150.Adventure
