/-
**What each section of the game does.**

* `paint_eq` — a wall fills its fifteen cells, those past the right border at the left one;
* `move_walls_thread_eq`, `move_golds_thread_eq`, `input_thread_func_eq` — from a state in which
  everything is on the map, a section does not fail, and this is the state that it leaves;
* `Placed` — everything is on the map, and `Placed.body`, `Placed.after`: it stays there, so that no
  section fails.
-/

import Csc3150.Adventure.Model

namespace Csc3150.Adventure

open Monitor

/-! ### Writing -/

/-- Store a character in every one of these cells. -/
def Grid.fill (grid : Grid) (cells : List (Int × Int)) (c : Char) : Grid := fun row col =>
  if (row, col) ∈ cells then c else grid row col

theorem write_inside {row col : Int} (inside : Inside row col) (grid : Grid) (c : Char) :
    write grid row col c = some (grid.set row col c) := if_pos inside

theorem read_inside {row col : Int} (inside : Inside row col) (grid : Grid) :
    read grid row col = some (grid row col) := if_pos inside

theorem Grid.set_apply (grid : Grid) (row col row' col' : Int) (c : Char) :
    grid.set row col c row' col' = if row' = row ∧ col' = col then c else grid row' col' := rfl

theorem Grid.fill_apply (grid : Grid) (cells : List (Int × Int)) (c : Char) (row col : Int) :
    grid.fill cells c row col = if (row, col) ∈ cells then c else grid row col := rfl

@[simp] theorem Grid.fill_nil (grid : Grid) (c : Char) : grid.fill [] c = grid := by
  funext row col
  exact if_neg List.not_mem_nil

theorem Grid.fill_cons (grid : Grid) (cell : Int × Int) (cells : List (Int × Int)) (c : Char) :
    grid.fill (cell :: cells) c = (grid.set cell.1 cell.2 c).fill cells c := by
  funext row col
  rw [fill_apply, fill_apply, Grid.set_apply]
  by_cases member : (row, col) ∈ cells
  · rw [if_pos member, if_pos (List.mem_cons_of_mem _ member)]
  · rw [if_neg member]
    exact if_congr (by rw [List.mem_cons, or_iff_left member, Prod.ext_iff]) rfl rfl

theorem Grid.fill_append (grid : Grid) (cells cells' : List (Int × Int)) (c : Char) :
    grid.fill (cells ++ cells') c = (grid.fill cells c).fill cells' c := by
  induction cells generalizing grid with
  | nil => rw [List.nil_append, fill_nil]
  | cons cell rest ih => rw [List.cons_append, fill_cons, fill_cons, ih]

/-- A loop that fills some cells in every round. -/
theorem foldlM_fill {ι : Type} {f : Grid → ι → Option Grid} {cells : ι → List (Int × Int)} {c : Char}
    (items : List ι) (round : ∀ i ∈ items, ∀ grid, f grid i = some (grid.fill (cells i) c))
    (grid : Grid) : items.foldlM f grid = some (grid.fill (items.flatMap cells) c) := by
  induction items generalizing grid with
  | nil =>
    rw [List.flatMap_nil, Grid.fill_nil]
    rfl
  | cons i rest ih =>
    rw [List.foldlM_cons, round i List.mem_cons_self, List.flatMap_cons, Grid.fill_append]
    exact ih (fun j member => round j (List.mem_cons_of_mem _ member)) _

theorem write_fill {row col : Int} (inside : Inside row col) (grid : Grid) (c : Char) :
    write grid row col c = some (grid.fill [(row, col)] c) := by
  rw [Grid.fill_cons, Grid.fill_nil]
  exact write_inside inside grid c

/-! ### Walls -/

/-- The column at which `move_walls_thread` draws a cell of a wall. -/
def drawnCol (current_col : Int) : Int :=
  if 1 ≤ current_col ∧ current_col < COLUMN - 1 then current_col
  else if current_col < 1 then COLUMN - current_col - 2
  else current_col - COLUMN + 2

/-- The fifteen cells that `move_walls_thread` draws for a wall. -/
def drawnCells (pos : Position) : List (Int × Int) :=
  (List.range 15).map fun (j : Nat) => (pos.row, drawnCol (pos.col + j))

theorem paintCell_eq (c : Char) (row current_col : Int) (grid : Grid) :
    paintCell c row current_col grid = write grid row (drawnCol current_col) c := by
  have width : COLUMN = 49 := rfl
  rw [drawnCol]
  by_cases middle : 1 ≤ current_col ∧ current_col < COLUMN - 1
  · have low : ¬ current_col < 1 := by omega
    have high : ¬ COLUMN - 1 ≤ current_col := by omega
    simp only [paintCell, if_pos middle, if_neg low, if_neg high]
    cases write grid row current_col c <;> rfl
  · by_cases low : current_col < 1
    · have high : ¬ COLUMN - 1 ≤ current_col := by omega
      simp only [paintCell, if_neg middle, if_pos low, if_neg high]
      show (write grid row (COLUMN - current_col - 2) c >>= fun grid => some grid) = _
      cases write grid row (COLUMN - current_col - 2) c <;> rfl
    · have high : COLUMN - 1 ≤ current_col := by omega
      simp only [paintCell, if_neg middle, if_neg low, if_pos high]
      rfl

/-- A position on the map, off the borders. -/
def Position.OnMap (pos : Position) : Prop :=
  (1 ≤ pos.row ∧ pos.row < ROW - 1) ∧ 1 ≤ pos.col ∧ pos.col < COLUMN - 1

/-- The cells of a wall are inside the borders. -/
theorem drawnCol_inside {pos : Position} (onMap : pos.OnMap) {j : Nat} (small : j < 15) :
    1 ≤ drawnCol (pos.col + j) ∧ drawnCol (pos.col + j) < COLUMN - 1 := by
  have width : COLUMN = 49 := rfl
  obtain ⟨-, lower, upper⟩ := onMap
  rw [drawnCol]
  split_ifs <;> omega

/-- A wall fills its fifteen cells. -/
theorem paint_eq {pos : Position} (onMap : pos.OnMap) (c : Char) (grid : Grid) :
    paint c pos grid = some (grid.fill (drawnCells pos) c) := by
  have round : ∀ j ∈ List.range 15, ∀ grid, paintCell c pos.row (pos.col + j) grid =
      some (grid.fill [(pos.row, drawnCol (pos.col + j))] c) := by
    intro j member grid
    have inside := drawnCol_inside onMap (List.mem_range.mp member)
    obtain ⟨rows, -⟩ := onMap
    rw [paintCell_eq, write_fill]
    exact ⟨⟨by omega, by omega⟩, by omega, by omega⟩
  rw [paint, foldlM_fill _ round, drawnCells, List.map_eq_flatMap]

theorem Wall.move_onMap {wall : Wall} (onMap : wall.pos.OnMap) : wall.move.pos.OnMap := by
  have width : COLUMN = 49 := rfl
  refine ⟨onMap.1, ?_⟩
  unfold Wall.move
  dsimp only
  split_ifs <;> omega

/-- The map when a wall has moved. -/
def wallGrid (wall : Wall) (grid : Grid) : Grid :=
  ((grid.fill (drawnCells wall.pos) EMPTY_CHAR).fill (drawnCells wall.move.pos) WALL_CHAR).set
    wall.pos.row COLUMN '\x00'

/-- The section of a wall that is on the map. -/
theorem move_walls_thread_eq {i : Fin NUM_WALLS} {g : Game} (onMap : (g.walls i).pos.OnMap) :
    move_walls_thread i g = some { g with
      map_grid := wallGrid (g.walls i) g.map_grid
      walls := Function.update g.walls i (g.walls i).move
      game_status_code := if (g.walls i).move.Hits g.player_x g.player_y then .lost
        else g.game_status_code } := by
  have last : Inside (g.walls i).move.pos.row COLUMN := by
    have width : COLUMN = 49 := rfl
    have height : ROW = 17 := rfl
    obtain ⟨rows, -⟩ := onMap
    exact ⟨⟨show 0 ≤ (g.walls i).pos.row by omega, show (g.walls i).pos.row < ROW by omega⟩,
      by omega, by omega⟩
  rw [move_walls_thread]
  dsimp only
  rw [paint_eq onMap]
  show (paint WALL_CHAR (g.walls i).move.pos _).bind _ = _
  rw [paint_eq (Wall.move_onMap onMap)]
  show (write _ (g.walls i).move.pos.row COLUMN '\x00').bind _ = _
  rw [write_inside last]
  rfl

/-! ### Golds -/

theorem Gold.move_onMap {gold : Gold} (onMap : gold.pos.OnMap) : gold.move.pos.OnMap := by
  have width : COLUMN = 49 := rfl
  refine ⟨onMap.1, ?_⟩
  unfold Gold.move
  dsimp only
  split_ifs <;> omega

theorem Position.OnMap.inside {pos : Position} (onMap : pos.OnMap) : Inside pos.row pos.col := by
  have width : COLUMN = 49 := rfl
  have height : ROW = 17 := rfl
  obtain ⟨rows, columns⟩ := onMap
  exact ⟨⟨by omega, by omega⟩, by omega, by omega⟩

theorem eraseGold_eq {pos : Position} (onMap : pos.OnMap) (grid : Grid) :
    eraseGold pos grid = some (if grid pos.row pos.col = GOLD_CHAR then
      grid.set pos.row pos.col EMPTY_CHAR else grid) := by
  rw [eraseGold, read_inside onMap.inside]
  show (if _ then _ else _) = _
  split_ifs
  · exact write_inside onMap.inside _ _
  · rfl

theorem placeGold_eq {gold : Gold} (onMap : gold.pos.OnMap) (grid : Grid) :
    placeGold gold grid = some (
      if gold.collected = false ∧ grid gold.pos.row gold.pos.col = EMPTY_CHAR then
        grid.set gold.pos.row gold.pos.col GOLD_CHAR else grid) := by
  rw [placeGold]
  by_cases left : gold.collected = false
  · rw [if_pos left, read_inside onMap.inside]
    show (if _ then _ else _) = _
    by_cases empty : grid gold.pos.row gold.pos.col = EMPTY_CHAR
    · rw [if_pos empty, if_pos ⟨left, empty⟩]
      exact write_inside onMap.inside _ _
    · rw [if_neg empty, if_neg fun both => empty both.2]
  · rw [if_neg left, if_neg fun both => left both.1]

@[simp] theorem collect_self (i : Fin NUM_GOLD) (g : Game) :
    (collect i g).golds i = { g.golds i with collected := true } := Function.update_self _ _ _

theorem collect_of_ne {i j : Fin NUM_GOLD} (different : j ≠ i) (g : Game) :
    (collect i g).golds j = g.golds j := Function.update_of_ne different _ _

/-- Gold `i` has moved, and the adventurer has collected it where the two have met. -/
def movedGold (i : Fin NUM_GOLD) (g : Game) : Game :=
  let moved := { g with golds := Function.update g.golds i (g.golds i).move }
  if (g.golds i).move.Meets g.player_x g.player_y then collect i moved else moved

theorem movedGold_pos (i : Fin NUM_GOLD) (g : Game) :
    ((movedGold i g).golds i).pos = (g.golds i).move.pos := by
  rw [movedGold]
  split_ifs
  · rw [collect_self]
    show (Function.update g.golds i (g.golds i).move i).pos = _
    rw [Function.update_self]
  · exact congrArg Gold.pos (Function.update_self i (g.golds i).move g.golds)

/-- Moving a gold moves nothing else. -/
theorem movedGold_still (i : Fin NUM_GOLD) (g : Game) :
    (movedGold i g).player_x = g.player_x ∧ (movedGold i g).player_y = g.player_y ∧
      (movedGold i g).walls = g.walls := by
  rw [movedGold]
  split_ifs <;> exact ⟨rfl, rfl, rfl⟩

/-- The map when gold `i` has moved. -/
def goldGrid (i : Fin NUM_GOLD) (g : Game) : Grid :=
  let old := (g.golds i).pos
  let new := (g.golds i).move.pos
  let erased := if g.map_grid old.row old.col = GOLD_CHAR then
    g.map_grid.set old.row old.col EMPTY_CHAR else g.map_grid
  let drawn := if ((movedGold i g).golds i).collected = false ∧ erased new.row new.col = EMPTY_CHAR
    then erased.set new.row new.col GOLD_CHAR else erased
  drawn.set new.row COLUMN '\x00'

/-- The section of a gold that is on the map. -/
theorem move_golds_thread_eq {i : Fin NUM_GOLD} {g : Game} (onMap : (g.golds i).pos.OnMap) :
    move_golds_thread i g = some { movedGold i g with map_grid := goldGrid i g } := by
  have new := Gold.move_onMap onMap
  have last : Inside (g.golds i).move.pos.row COLUMN := ⟨onMap.inside.1, by decide⟩
  rw [← movedGold_pos] at new last
  rw [move_golds_thread, eraseGold_eq onMap]
  show (placeGold ((movedGold i g).golds i) _).bind _ = _
  rw [placeGold_eq new]
  show (write _ ((movedGold i g).golds i).pos.row COLUMN '\x00').bind _ = _
  rw [write_inside last, movedGold_pos]
  rfl

/-! ### The adventurer -/

theorem walk_onMap {x y : Int} (onMap : Position.OnMap ⟨x, y⟩) (ch : Char) :
    Position.OnMap ⟨(walk ch x y).1, (walk ch x y).2⟩ := by
  have width : COLUMN = 49 := rfl
  have height : ROW = 17 := rfl
  obtain ⟨⟨left, right⟩, lower, upper⟩ := onMap
  dsimp only at left right lower upper
  unfold walk Position.OnMap
  split_ifs <;> dsimp only <;> omega

/-- The adventurer has walked, and the walls are tested. -/
def walked (ch : Char) (g : Game) : Game :=
  { g with
    player_x := (walk ch g.player_x g.player_y).1
    player_y := (walk ch g.player_x g.player_y).2
    map_grid := g.map_grid.set g.player_x g.player_y EMPTY_CHAR
    game_status_code :=
      if ∃ i, (g.walls i).Hits (walk ch g.player_x g.player_y).1 (walk ch g.player_x g.player_y).2
      then .lost
      else if Quits ch then .quit
      else g.game_status_code }

/-- The adventurer picks up gold `i` where it is. -/
def picked (g : Game) (i : Fin NUM_GOLD) : Game :=
  if (g.golds i).Meets g.player_x g.player_y then
    collect i { g with map_grid := g.map_grid.set g.player_x g.player_y EMPTY_CHAR }
  else g

/-- The state after the section of the input thread. -/
def entered (ch : Char) (g : Game) : Game :=
  let g := (List.finRange NUM_GOLD).foldl picked (walked ch g)
  { g with map_grid := g.map_grid.set g.player_x g.player_y ADVENTURER }

theorem foldl_hits (walls : Fin NUM_WALLS → Wall) (x y : Int) (status : Status) :
    (List.finRange NUM_WALLS).foldl (fun status i =>
      if (walls i).Hits x y then .lost else status) status =
      if ∃ i, (walls i).Hits x y then .lost else status := by
  have loop : ∀ (items : List (Fin NUM_WALLS)) (status : Status),
      items.foldl (fun status i => if (walls i).Hits x y then .lost else status) status =
        if ∃ i ∈ items, (walls i).Hits x y then .lost else status := by
    intro items
    induction items with
    | nil => simp
    | cons i rest ih =>
      intro status
      rw [List.foldl_cons, ih]
      by_cases later : ∃ j ∈ rest, (walls j).Hits x y
      · obtain ⟨j, member, hits⟩ := later
        rw [if_pos ⟨j, member, hits⟩, if_pos ⟨j, List.mem_cons_of_mem _ member, hits⟩]
      · rw [if_neg later]
        refine if_congr ?_ rfl rfl
        rw [List.exists_mem_cons_iff, or_iff_left later]
  rw [loop]
  simp [List.mem_finRange]

theorem pickUp_eq {g : Game} (onMap : Position.OnMap ⟨g.player_x, g.player_y⟩) (i : Fin NUM_GOLD) :
    pickUp g i = some (picked g i) := by
  rw [pickUp, picked]
  by_cases met : (g.golds i).Meets g.player_x g.player_y
  · rw [if_pos met, if_pos met, ← met.2.1, ← met.2.2, write_inside onMap.inside]
    rfl
  · rw [if_neg met, if_neg met]

/-- Picking up a gold moves nothing. -/
theorem picked_still (g : Game) (i : Fin NUM_GOLD) :
    (picked g i).player_x = g.player_x ∧ (picked g i).player_y = g.player_y ∧
      (picked g i).walls = g.walls := by
  rw [picked]
  split_ifs <;> exact ⟨rfl, rfl, rfl⟩

theorem foldl_picked_still (items : List (Fin NUM_GOLD)) (g : Game) :
    (items.foldl picked g).player_x = g.player_x ∧ (items.foldl picked g).player_y = g.player_y ∧
      (items.foldl picked g).walls = g.walls := by
  induction items generalizing g with
  | nil => exact ⟨rfl, rfl, rfl⟩
  | cons i rest ih =>
    obtain ⟨x, y, walls⟩ := picked_still g i
    rw [List.foldl_cons, ← x, ← y, ← walls]
    exact ih _

theorem foldlM_pickUp (items : List (Fin NUM_GOLD)) {g : Game}
    (onMap : Position.OnMap ⟨g.player_x, g.player_y⟩) :
    items.foldlM pickUp g = some (items.foldl picked g) := by
  induction items generalizing g with
  | nil => rfl
  | cons i rest ih =>
    obtain ⟨x, y, -⟩ := picked_still g i
    rw [List.foldlM_cons, pickUp_eq onMap, List.foldl_cons]
    exact ih (by rwa [x, y])

/-- The section of the input thread for an adventurer on the map. -/
theorem input_thread_func_eq {ch : Char} {g : Game}
    (onMap : Position.OnMap ⟨g.player_x, g.player_y⟩) :
    input_thread_func ch g = some (entered ch g) := by
  have next := walk_onMap onMap ch
  obtain ⟨x, y, -⟩ := foldl_picked_still (List.finRange NUM_GOLD) (walked ch g)
  rw [input_thread_func, write_inside onMap.inside]
  dsimp only
  rw [foldl_hits]
  show ((List.finRange NUM_GOLD).foldlM pickUp (walked ch g)).bind _ = _
  rw [foldlM_pickUp (g := walked ch g) _ next]
  show (write _ _ _ ADVENTURER).bind _ = _
  rw [write_inside (by rw [x, y]; exact next.inside)]
  rfl

/-! ### All sections -/

/-- The state after the section of wall `i`. -/
def movedWall (i : Fin NUM_WALLS) (g : Game) : Game :=
  { g with
    map_grid := wallGrid (g.walls i) g.map_grid
    walls := Function.update g.walls i (g.walls i).move
    game_status_code :=
      if (g.walls i).move.Hits g.player_x g.player_y then .lost else g.game_status_code }

/-- The state after a section. -/
def after : Thread → Option Char → Game → Game
  | .wall i, _, g => movedWall i g
  | .gold i, _, g => { movedGold i g with map_grid := goldGrid i g }
  | .input, some ch, g => entered ch g
  | .input, none, g => g
  | .printer, _, g => g

/-- Everything is on the map, the walls and the golds in the rows where they started. -/
structure Placed (g : Game) : Prop where
  player : Position.OnMap ⟨g.player_x, g.player_y⟩
  wall : ∀ i, (g.walls i).pos.OnMap
  gold : ∀ i, (g.golds i).pos.OnMap
  wallRow : ∀ i, (g.walls i).pos.row = wall_rows i
  goldRow : ∀ i, (g.golds i).pos.row = gold_rows i

/-- No section fails. -/
theorem Placed.body {g : Game} (placed : Placed g) (thread : Thread) (key : Option Char) :
    threads.body thread key g = some (after thread key g) := by
  cases thread with
  | wall i => exact move_walls_thread_eq (placed.wall i)
  | gold i => exact move_golds_thread_eq (placed.gold i)
  | printer => rfl
  | input =>
    cases key with
    | none => rfl
    | some ch => exact input_thread_func_eq placed.player

theorem collect_pos (i j : Fin NUM_GOLD) (g : Game) :
    ((collect i g).golds j).pos = (g.golds j).pos := by
  by_cases same : j = i
  · rw [same, collect_self]
  · rw [collect_of_ne same]

theorem movedGold_pos_of_ne {i j : Fin NUM_GOLD} (different : j ≠ i) (g : Game) :
    (movedGold i g).golds j = g.golds j := by
  rw [movedGold]
  split_ifs
  · rw [collect_of_ne different]
    exact Function.update_of_ne different _ _
  · exact Function.update_of_ne different _ _

theorem foldl_picked_pos (items : List (Fin NUM_GOLD)) (g : Game) (j : Fin NUM_GOLD) :
    ((items.foldl picked g).golds j).pos = (g.golds j).pos := by
  induction items generalizing g with
  | nil => rfl
  | cons i rest ih =>
    rw [List.foldl_cons, ih, picked]
    split_ifs
    · exact collect_pos i j _
    · rfl

/-- Everything is on the map when the adventurer has walked. -/
theorem Placed.of_walk {g : Game} (placed : Placed g) (ch : Char) : Placed (walked ch g) :=
  { placed with player := walk_onMap placed.player ch }

theorem Placed.foldl_picked {g : Game} (placed : Placed g) (items : List (Fin NUM_GOLD)) :
    Placed (items.foldl picked g) := by
  obtain ⟨x, y, walls⟩ := foldl_picked_still items g
  have golds := foldl_picked_pos items g
  constructor
  · rw [x, y]
    exact placed.player
  · rw [walls]
    exact placed.wall
  · intro i
    rw [golds]
    exact placed.gold i
  · rw [walls]
    exact placed.wallRow
  · intro i
    rw [golds]
    exact placed.goldRow i

/-- Everything stays on the map. -/
theorem Placed.after {g : Game} (placed : Placed g) (thread : Thread) (key : Option Char) :
    Placed (after thread key g) := by
  cases thread with
  | printer => exact placed
  | wall i =>
    have each : ∀ j, (Function.update g.walls i (g.walls i).move j).pos.OnMap ∧
        (Function.update g.walls i (g.walls i).move j).pos.row = wall_rows j := by
      intro j
      by_cases same : j = i
      · subst same
        rw [Function.update_self]
        exact ⟨Wall.move_onMap (placed.wall j), placed.wallRow j⟩
      · rw [Function.update_of_ne same]
        exact ⟨placed.wall j, placed.wallRow j⟩
    exact { placed with wall := fun j => (each j).1, wallRow := fun j => (each j).2 }
  | gold i =>
    have each : ∀ j, ((movedGold i g).golds j).pos.OnMap ∧
        ((movedGold i g).golds j).pos.row = gold_rows j := by
      intro j
      by_cases same : j = i
      · subst same
        rw [movedGold_pos]
        exact ⟨Gold.move_onMap (placed.gold j), placed.goldRow j⟩
      · rw [movedGold_pos_of_ne same]
        exact ⟨placed.gold j, placed.goldRow j⟩
    obtain ⟨x, y, walls⟩ := movedGold_still i g
    refine ⟨?_, ?_, fun j => (each j).1, ?_, fun j => (each j).2⟩
    · show Position.OnMap ⟨(movedGold i g).player_x, (movedGold i g).player_y⟩
      rw [x, y]
      exact placed.player
    · show ∀ j, ((movedGold i g).walls j).pos.OnMap
      rw [walls]
      exact placed.wall
    · show ∀ j, ((movedGold i g).walls j).pos.row = wall_rows j
      rw [walls]
      exact placed.wallRow
  | input =>
    cases key with
    | none => exact placed
    | some ch =>
      have all := (placed.of_walk ch).foldl_picked (List.finRange NUM_GOLD)
      exact ⟨all.player, all.wall, all.gold, all.wallRow, all.goldRow⟩

end Csc3150.Adventure
