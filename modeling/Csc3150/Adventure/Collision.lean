/-
**Collisions and the cells of a wall.**

A wall that crosses the right border is drawn in two parts; the collision tests compare with
`wall->pos.col` and know the first part only.

* `mem_drawnCells` — the cells that are drawn are those of the test (`Hits`) and the wrapped-around ones
  (`Wraps`);
* `walks_into_wall` — a running game with the adventurer inside a wall;
* `collision_agrees` — the runs in which drawing and collisions agree are those in which no section
  brings the adventurer and the wrapped-around part of a wall together.
-/

import Csc3150.Adventure.Ending

namespace Csc3150.Adventure

open Monitor Transition

/-- The cell is in the wrapped-around part of the wall. -/
def Wall.Wraps (wall : Wall) (x y : Int) : Prop :=
  wall.pos.row = x ∧ y + (COLUMN - 2) < wall.pos.col + 15

instance (wall : Wall) (x y : Int) : Decidable (wall.Wraps x y) := inferInstanceAs (Decidable (_ ∧ _))

/-- While the game is running, the adventurer is in no cell that is drawn for a wall. -/
def Agrees (g : Game) : Prop :=
  g.game_status_code = .running → ∀ i, (g.player_x, g.player_y) ∉ drawnCells (g.walls i).pos

/-- In a game that is running, the section brings the adventurer and the wrapped-around part of a wall
not together. -/
def Clears (g : Game) : Thread → Option Char → Prop
  | .wall i, _ => g.game_status_code = .running → ¬ (g.walls i).move.Wraps g.player_x g.player_y
  | .input, some ch => g.game_status_code = .running → ∀ i,
      ¬ (g.walls i).Wraps (walk ch g.player_x g.player_y).1 (walk ch g.player_x g.player_y).2
  | _, _ => True

def ClearsStep (g : Game) : GameLabel → Prop
  | .check _ => True
  | .body thread key => Clears g thread key

/-! ### Cells of a wall -/

section

variable {wall : Wall} {x y : Int}

theorem mem_drawnCells (wallOnMap : wall.pos.OnMap) (onMap : Position.OnMap ⟨x, y⟩) :
    (x, y) ∈ drawnCells wall.pos ↔ wall.Hits x y ∨ wall.Wraps x y := by
  have width : COLUMN = 49 := rfl
  obtain ⟨-, left, right⟩ := wallOnMap
  obtain ⟨-, left', right'⟩ := onMap
  dsimp only at left' right'
  rw [drawnCells, List.mem_map]
  constructor
  · rintro ⟨j, member, cell⟩
    have small := List.mem_range.mp member
    obtain ⟨row, col⟩ := Prod.mk.inj cell
    rw [drawnCol] at col
    split_ifs at col with middle low
    · exact Or.inl ⟨row, by omega, by omega⟩
    · omega
    · exact Or.inr ⟨row, by omega⟩
  · rintro (⟨row, lower, upper⟩ | ⟨row, upper⟩)
    · refine ⟨(y - wall.pos.col).toNat, List.mem_range.mpr (by omega), Prod.ext row ?_⟩
      show drawnCol (wall.pos.col + ((y - wall.pos.col).toNat : Int)) = y
      rw [drawnCol, if_pos (by omega)]
      omega
    · refine ⟨(y + (COLUMN - 2) - wall.pos.col).toNat, List.mem_range.mpr (by omega),
        Prod.ext row ?_⟩
      show drawnCol (wall.pos.col + ((y + (COLUMN - 2) - wall.pos.col).toNat : Int)) = y
      rw [drawnCol, if_neg (by omega), if_neg (by omega)]
      omega

/-- The two parts of a wall are apart. -/
theorem Wall.Wraps.not_hits (wraps : wall.Wraps x y) : ¬ wall.Hits x y := by
  have width : COLUMN = 49 := rfl
  rintro ⟨-, lower, -⟩
  have := wraps.2
  omega

end

theorem wall_rows_injective : Function.Injective wall_rows := by
  intro i j
  revert i j
  decide

/-! ### Sections -/

variable {g : Game}

theorem walk_of_quits {ch : Char} (quits : Quits ch) (x y : Int) : walk ch x y = (x, y) := by
  rcases quits with rfl | rfl <;> rfl

/-- The row of a wall has no other wall and no gold. -/
theorem Wall.Wraps.alone (placed : Placed g) {i : Fin NUM_WALLS} {x y : Int}
    (wraps : (g.walls i).Wraps x y) :
    (¬ ∃ j, (g.walls j).Hits x y) ∧ ¬ ∃ j, (g.golds j).Meets x y := by
  have row : wall_rows i = x := (placed.wallRow i).symm.trans wraps.1
  refine ⟨fun other => ?_, fun other => ?_⟩
  · obtain ⟨j, hits⟩ := other
    have same : j = i := wall_rows_injective (by rw [row, ← placed.wallRow j, hits.1])
    subst same
    exact wraps.not_hits hits
  · obtain ⟨j, meets⟩ := other
    exact gold_rows_ne_wall_rows j i (by rw [row, ← placed.goldRow j, meets.2.1])

/-- Golds that are collected can only win the game. -/
theorem Collects.running {g g' : Game} (collects : Collects g g') (books : g.shards_remaining = left g)
    (running : g'.game_status_code = .running) : g.game_status_code = .running := by
  by_cases last : 0 < left g ∧ left g' = 0
  · rw [collects.last books last.1 last.2] at running
    cases running
  · rwa [collects.before books last] at running

theorem running_of_movedGold {i : Fin NUM_GOLD}
    (running : (movedGold i g).game_status_code = .running) : g.game_status_code = .running := by
  rw [movedGold] at running
  split_ifs at running
  · change (if g.shards_remaining - 1 = 0 then Status.won else g.game_status_code) = _ at running
    split_ifs at running
    exact running
  · exact running

/-- A section keeps drawing and collisions in agreement exactly when it clears the walls. -/
theorem clears_iff (placed : Placed g) (accounts : Accounts g) (agrees : Agrees g) (thread : Thread)
    (key : Option Char) : Agrees (after thread key g) ↔ Clears g thread key := by
  cases thread with
  | printer => exact iff_of_true agrees trivial
  | gold i =>
    refine iff_of_true (fun running => ?_) trivial
    obtain ⟨x, y, walls⟩ := movedGold_still i g
    have before := running_of_movedGold running
    show ∀ j, ((movedGold i g).player_x, (movedGold i g).player_y) ∉
      drawnCells ((movedGold i g).walls j).pos
    rw [x, y, walls]
    exact agrees before
  | wall i =>
    have onMap := Wall.move_onMap (placed.wall i)
    have self : (movedWall i g).walls i = (g.walls i).move := Function.update_self _ _ _
    constructor
    · intro agrees' running wraps
      refine agrees' (Eq.trans (if_neg wraps.not_hits) running) i ?_
      show (g.player_x, g.player_y) ∈ drawnCells ((movedWall i g).walls i).pos
      rw [self]
      exact (mem_drawnCells onMap placed.player).mpr (Or.inr wraps)
    · intro clears running j
      show (g.player_x, g.player_y) ∉ drawnCells ((movedWall i g).walls j).pos
      by_cases hits : (g.walls i).move.Hits g.player_x g.player_y
      · have lost : (movedWall i g).game_status_code = .lost := if_pos hits
        cases lost.symm.trans running
      · have before : g.game_status_code = .running := (if_neg hits).symm.trans running
        by_cases same : j = i
        · subst same
          rw [self, mem_drawnCells onMap placed.player]
          exact not_or.mpr ⟨hits, clears before⟩
        · have other : (movedWall i g).walls j = g.walls j := Function.update_of_ne same _ _
          rw [other]
          exact agrees before j
  | input =>
    cases key with
    | none => exact iff_of_true agrees trivial
    | some ch =>
      have collects := foldl_picked_collects (List.finRange NUM_GOLD) (walked ch g)
      have books : (walked ch g).shards_remaining = left (walked ch g) := accounts.books
      have onMap := walk_onMap placed.player ch
      obtain ⟨x, y, walls⟩ := foldl_picked_still (List.finRange NUM_GOLD) (walked ch g)
      have agrees' : Agrees (entered ch g) ↔
          ((List.finRange NUM_GOLD).foldl picked (walked ch g)).game_status_code = .running →
          ∀ i, ¬ ((g.walls i).Hits (walk ch g.player_x g.player_y).1
            (walk ch g.player_x g.player_y).2 ∨
            (g.walls i).Wraps (walk ch g.player_x g.player_y).1
              (walk ch g.player_x g.player_y).2) := by
        refine forall_congr' fun _ => forall_congr' fun i => not_congr ?_
        show (((List.finRange NUM_GOLD).foldl picked (walked ch g)).player_x,
          ((List.finRange NUM_GOLD).foldl picked (walked ch g)).player_y) ∈
          drawnCells (((List.finRange NUM_GOLD).foldl picked (walked ch g)).walls i).pos ↔ _
        rw [x, y, walls]
        exact mem_drawnCells (placed.wall i) onMap
      show Agrees (entered ch g) ↔ _
      rw [agrees']
      constructor
      · intro apart running i wraps
        obtain ⟨noHit, noGold⟩ := wraps.alone placed
        have stays : (walked ch g).game_status_code = .running := by
          show (if _ then _ else if _ then _ else g.game_status_code) = _
          rw [if_neg noHit, if_neg, running]
          intro quits
          -- who quits stays where he is
          rw [walk_of_quits quits] at wraps
          exact agrees running i ((mem_drawnCells (placed.wall i) placed.player).mpr (Or.inr wraps))
        refine apart ?_ i (Or.inr wraps)
        rw [collects.before books fun last => noGold ((picks_last_iff (placed.of_walk ch)).mp last).1,
          stays]
      · intro clears running i
        have stays : (if ∃ i, (g.walls i).Hits _ _ then Status.lost else if Quits ch then .quit
            else g.game_status_code) = .running := collects.running books running
        split_ifs at stays with noHit
        exact not_or.mpr ⟨fun hits => noHit ⟨i, hits⟩, clears stays i⟩

/-! ### Runs -/

variable {s s' : GameState} {label : GameLabel}

theorem clearsStep_iff (placed : Placed s.shared) (accounts : Accounts s.shared)
    (agrees : Agrees s.shared) (step : threads.Step s label s') :
    Agrees s'.shared ↔ ClearsStep s.shared label := by
  rcases step.cases with ⟨-, rfl, same⟩ | ⟨thread, key, rfl, -, body⟩
  · rw [same]
    exact iff_of_true agrees trivial
  · rw [placed.body] at body
    rw [← Option.some.inj body]
    exact clears_iff placed accounts agrees thread key

theorem Initial.agrees (initial : Initial g) : Agrees g := by
  intro _ i member
  obtain ⟨j, -, cell⟩ := List.mem_map.mp member
  have row : wall_rows i = 8 := by
    rw [← initial.wallRow i, ← initial.adventurer.1]
    exact congrArg Prod.fst cell
  have middle : ∀ i, wall_rows i ≠ 8 := by decide
  exact middle i row

/-- Wall 3 goes left over the left border and comes back at the right one, drawn in two parts; the
adventurer walks down and to the left, into the second part. -/
theorem walks_into_wall :
    ∃ g labels s, init (fun _ => 0) (fun _ => 0) = some g ∧
      Run threads.Step (Loops.start g) labels s ∧ s.shared.game_status_code = .running ∧
      (s.shared.player_x, s.shared.player_y) ∈ drawnCells (s.shared.walls 3).pos := by
  let labels : List GameLabel :=
    [.check (.wall 3), .body (.wall 3) none] ++ press ('s' :: 's' :: List.replicate 13 'a')
  have performed : ((init (fun _ => 0) (fun _ => 0)).bind fun g =>
      labels.foldlM threads.next (Loops.start g)).any fun s =>
        decide (s.shared.game_status_code = .running ∧
          (s.shared.player_x, s.shared.player_y) ∈ drawnCells (s.shared.walls 3).pos) := by
    decide +kernel
  obtain ⟨s, found, both⟩ := (Option.any_eq_true _ _).mp performed
  obtain ⟨g, start, run⟩ := Option.bind_eq_some_iff.mp found
  obtain ⟨running, member⟩ := of_decide_eq_true both
  exact ⟨g, labels, s, start, Loops.run_of_performed run, running, member⟩

/-- **When collisions agree with drawing.** Whatever `rand` returns, the runs in which the adventurer of
a running game is never in a cell that is drawn for a wall are those in which no section brings him and
the wrapped-around part of a wall together. -/
theorem collision_agrees (wallRand goldRand : Nat → Nat) :
    ∃ g, init wallRand goldRand = some g ∧
      (∀ labels s, Run (fun a label b => threads.Step a label b ∧ Agrees b.shared)
          (Loops.start g) labels s ↔
        Run (fun a label b => threads.Step a label b ∧ ClearsStep a.shared label)
          (Loops.start g) labels s) ∧
      ∀ labels s, Run (fun a label b => threads.Step a label b ∧ ClearsStep a.shared label)
        (Loops.start g) labels s → Agrees s.shared := by
  obtain ⟨g, start, initial⟩ := init_eq wallRand goldRand
  have stays : ∀ labels s, Run (fun a label b => threads.Step a label b ∧ Agrees b.shared)
        (Loops.start g) labels s ↔
      Run (fun a label b => threads.Step a label b ∧ ClearsStep a.shared label)
        (Loops.start g) labels s := by
    intro labels s
    apply Run.stays_iff (fun a => Placed a.shared ∧ Accounts a.shared) (fun a => Agrees a.shared)
      (fun a label b here step => accounts_of_run here.1 here.2 (.cons step (.nil b))) ?_
      ⟨initial.toPlaced, initial.accounts⟩ initial.agrees
    intro a label b here agrees step
    exact clearsStep_iff here.1 here.2 agrees step
  exact ⟨g, start, stays, fun labels s run =>
    Run.good (fun a : GameState => Agrees a.shared) initial.agrees ((stays labels s).mpr run)⟩

end Csc3150.Adventure
