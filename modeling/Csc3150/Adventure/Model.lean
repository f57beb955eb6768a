/-
**The game `hw2.cpp`.**

The state of the game, and the sections that its threads perform under `map_mutex`. A section fails
where it would access `map_grid` outside its `ROW` rows of `COLUMN + 1` characters. The fourteen threads
are loops (`Loops`): six walls, six golds, the printer and the input. What `rand` returns and which
keys are pressed is left open.
-/

import Csc3150.Library.Monitor
import Mathlib.Data.Fin.VecNotation
import Mathlib.Data.List.FinRange

namespace Csc3150.Adventure

open Monitor

abbrev ROW : Int := 17
abbrev COLUMN : Int := 49
abbrev NUM_WALLS : Nat := 6
abbrev NUM_GOLD : Nat := 6

def HORI_LINE : Char := '-'
def VERT_LINE : Char := '|'
def CORNER : Char := '+'
def ADVENTURER : Char := '0'
def WALL_CHAR : Char := '='
def GOLD_CHAR : Char := '$'
def EMPTY_CHAR : Char := ' '

/-- `game_status_code`. -/
inductive Status where
  | running
  | won
  | lost
  | quit
  deriving DecidableEq

structure Position where
  row : Int
  col : Int
  deriving DecidableEq

structure Wall where
  /-- Starting position (leftmost column). -/
  pos : Position
  /-- 1: right, -1: left. -/
  direction : Int

structure Gold where
  pos : Position
  direction : Int
  collected : Bool

/-- The characters of `map_grid`. -/
abbrev Grid := Int → Int → Char

structure Game where
  player_x : Int
  player_y : Int
  map_grid : Grid
  game_status_code : Status
  shards_remaining : Int
  walls : Fin NUM_WALLS → Wall
  golds : Fin NUM_GOLD → Gold

/-! ### `map_grid` -/

/-- Is this a character of `map_grid`? -/
def Inside (row col : Int) : Prop := (0 ≤ row ∧ row < ROW) ∧ 0 ≤ col ∧ col < COLUMN + 1

instance (row col : Int) : Decidable (Inside row col) := inferInstanceAs (Decidable (_ ∧ _))

/-- Store a character. -/
def Grid.set (grid : Grid) (row col : Int) (c : Char) : Grid := fun row' col' =>
  if row' = row ∧ col' = col then c else grid row' col'

/-- `map_grid[row][col] = c`. -/
def write (grid : Grid) (row col : Int) (c : Char) : Option Grid :=
  if Inside row col then some (grid.set row col c) else none

/-- `map_grid[row][col]`. -/
def read (grid : Grid) (row col : Int) : Option Char :=
  if Inside row col then some (grid row col) else none

/-! ### Initial placement -/

/-- The loops and assignments of `init_map` on the map. -/
def drawMap (grid : Grid) : Option Grid := do
  let grid ← (List.range 17 ×ˢ List.range 49).foldlM (fun grid (cell : Nat × Nat) =>
    write grid cell.1 cell.2 EMPTY_CHAR) grid
  -- horizontal borders
  let grid ← (List.range 49).foldlM (fun grid (j : Nat) => do
    let grid ← write grid 0 j HORI_LINE
    write grid (ROW - 1) j HORI_LINE) grid
  -- vertical borders
  let grid ← (List.range 17).foldlM (fun grid (i : Nat) => do
    let grid ← write grid i 0 VERT_LINE
    write grid i (COLUMN - 1) VERT_LINE) grid
  -- corners
  let grid ← write grid 0 0 CORNER
  let grid ← write grid 0 (COLUMN - 1) CORNER
  let grid ← write grid (ROW - 1) 0 CORNER
  let grid ← write grid (ROW - 1) (COLUMN - 1) CORNER
  let grid ← write grid 8 24 ADVENTURER
  (List.range 17).foldlM (fun grid (i : Nat) => write grid i COLUMN '\x00') grid

/-- `init_map`. The other statics are zero before they are set. -/
def init_map : Option Game := do
  let map_grid ← drawMap fun _ _ => '\x00'
  return {
    player_x := 8
    player_y := 24
    map_grid := map_grid
    game_status_code := .running
    shards_remaining := NUM_GOLD
    walls := fun _ => ⟨⟨0, 0⟩, 0⟩
    golds := fun _ => ⟨⟨0, 0⟩, 0, false⟩ }

def wall_rows : Fin NUM_WALLS → Int := ![2, 4, 6, 10, 12, 14]
def gold_rows : Fin NUM_GOLD → Int := ![1, 3, 5, 11, 13, 15]

/-- One round of `init_walls`; `random` is what `rand` returns. -/
def init_wall (random : Nat) (g : Game) (i : Fin NUM_WALLS) : Option Game := do
  let wall : Wall :=
    { pos := { row := wall_rows i, col := random % (COLUMN - 15 - 2) + 1 }
      direction := if i.val % 2 = 0 then 1 else -1 }
  -- place the wall on the map
  let map_grid ← (List.range 15).foldlM (fun grid (j : Nat) =>
    let current_col := wall.pos.col + j
    if 1 ≤ current_col ∧ current_col < COLUMN - 1 then write grid wall.pos.row current_col WALL_CHAR
    else some grid) g.map_grid
  return { g with map_grid := map_grid, walls := Function.update g.walls i wall }

/-- `init_walls`; `rand i` is what the call of `rand` in round `i` returns. -/
def init_walls (rand : Nat → Nat) (g : Game) : Option Game :=
  (List.finRange NUM_WALLS).foldlM (fun g i => init_wall (rand i.val) g i) g

/-- The search for an available spot in row `row`: the map and the column, which is `col` when there is
none. -/
def findSpot (row col : Int) : (fuel : Nat) → (j : Int) → Grid → Option (Grid × Int)
  | 0, _, grid => some (grid, col)
  | fuel + 1, j, grid =>
    if j < COLUMN - 1 then do
      let c ← read grid row j
      if c = EMPTY_CHAR then
        let grid ← write grid row j GOLD_CHAR
        return (grid, j)
      else findSpot row col fuel (j + 1) grid
    else some (grid, col)

/-- One round of `init_golds`. -/
def init_gold (random random' : Nat) (g : Game) (i : Fin NUM_GOLD) : Option Game := do
  let row := gold_rows i
  let col : Int := random' % (COLUMN - 2) + 1
  let c ← read g.map_grid row col
  let (map_grid, col) ←
    if c = EMPTY_CHAR then do
      let grid ← write g.map_grid row col GOLD_CHAR
      some (grid, col)
    else findSpot row col 47 1 g.map_grid
  let gold : Gold :=
    { pos := { row := row, col := col }
      direction := if random % 2 ≠ 0 then 1 else -1
      collected := false }
  return { g with map_grid := map_grid, golds := Function.update g.golds i gold }

/-- `init_golds`, with two calls of `rand` in each round. -/
def init_golds (rand : Nat → Nat) (g : Game) : Option Game :=
  (List.finRange NUM_GOLD).foldlM (fun g i =>
    init_gold (rand (2 * i.val)) (rand (2 * i.val + 1)) g i) g

/-- The game when the threads are created. -/
def init (wallRand goldRand : Nat → Nat) : Option Game := do
  let g ← init_map
  let g ← init_walls wallRand g
  init_golds goldRand g

/-! ### Walls -/

/-- Fill the cell at `current_col` of a wall, where it is on the map. -/
def paintCell (c : Char) (row current_col : Int) (grid : Grid) : Option Grid := do
  let grid ← if 1 ≤ current_col ∧ current_col < COLUMN - 1 then write grid row current_col c
    else some grid
  let grid ← if current_col < 1 then write grid row (COLUMN - current_col - 2) c else some grid
  -- at the border, to the beginning of the row
  if COLUMN - 1 ≤ current_col then write grid row (current_col - COLUMN + 2) c else some grid

/-- Fill the cells of a wall. -/
def paint (c : Char) (pos : Position) (grid : Grid) : Option Grid :=
  (List.range 15).foldlM (fun grid (j : Nat) => paintCell c pos.row (pos.col + j) grid) grid

/-- The wall in its next position. -/
def Wall.move (wall : Wall) : Wall :=
  let col := wall.pos.col + wall.direction
  let col :=
    if col < 1 then COLUMN - 2 -- reappear from right
    else if COLUMN - 1 ≤ col then 1 -- reappear from left
    else col
  { wall with pos := { wall.pos with col := col } }

/-- The collision test. -/
def Wall.Hits (wall : Wall) (x y : Int) : Prop :=
  wall.pos.row = x ∧ wall.pos.col ≤ y ∧ y < wall.pos.col + 15

instance (wall : Wall) (x y : Int) : Decidable (wall.Hits x y) := inferInstanceAs (Decidable (_ ∧ _))

/-- The section of `move_walls_thread`. -/
def move_walls_thread (i : Fin NUM_WALLS) (g : Game) : Option Game := do
  let wall := g.walls i
  let map_grid ← paint EMPTY_CHAR wall.pos g.map_grid
  let wall := wall.move
  let map_grid ← paint WALL_CHAR wall.pos map_grid
  let map_grid ← write map_grid wall.pos.row COLUMN '\x00'
  return { g with
    map_grid := map_grid
    walls := Function.update g.walls i wall
    game_status_code := if wall.Hits g.player_x g.player_y then .lost else g.game_status_code }

/-! ### Golds -/

/-- The gold in its next position. -/
def Gold.move (gold : Gold) : Gold :=
  let col := gold.pos.col + gold.direction
  let col :=
    if col < 1 then COLUMN - 2
    else if COLUMN - 2 < col then 1
    else col
  { gold with pos := { gold.pos with col := col } }

/-- Is the gold there for the adventurer? -/
def Gold.Meets (gold : Gold) (x y : Int) : Prop :=
  gold.collected = false ∧ x = gold.pos.row ∧ y = gold.pos.col

instance (gold : Gold) (x y : Int) : Decidable (gold.Meets x y) :=
  inferInstanceAs (Decidable (_ ∧ _))

/-- Collect gold `i`. -/
def collect (i : Fin NUM_GOLD) (g : Game) : Game :=
  { g with
    golds := Function.update g.golds i { g.golds i with collected := true }
    shards_remaining := g.shards_remaining - 1
    game_status_code := if g.shards_remaining - 1 = 0 then .won else g.game_status_code }

/-- Remove a gold from the map. -/
def eraseGold (pos : Position) (grid : Grid) : Option Grid := do
  let c ← read grid pos.row pos.col
  if c = GOLD_CHAR then write grid pos.row pos.col EMPTY_CHAR else some grid

/-- Place a gold on the map if it is not collected. -/
def placeGold (gold : Gold) (grid : Grid) : Option Grid :=
  if gold.collected = false then do
    let c ← read grid gold.pos.row gold.pos.col
    if c = EMPTY_CHAR then write grid gold.pos.row gold.pos.col GOLD_CHAR else some grid
  else some grid

/-- The section of `move_golds_thread`. -/
def move_golds_thread (i : Fin NUM_GOLD) (g : Game) : Option Game := do
  let map_grid ← eraseGold (g.golds i).pos g.map_grid
  let gold := (g.golds i).move
  let g := { g with golds := Function.update g.golds i gold }
  -- check if adventurer collects the gold shard
  let g := if gold.Meets g.player_x g.player_y then collect i g else g
  let map_grid ← placeGold (g.golds i) map_grid
  let map_grid ← write map_grid (g.golds i).pos.row COLUMN '\x00'
  return { g with map_grid := map_grid }

/-! ### The adventurer -/

/-- Where a key takes the adventurer. -/
def walk (ch : Char) (x y : Int) : Int × Int :=
  if ch = 'w' ∨ ch = 'W' then (if 1 < x then x - 1 else x, y)
  else if ch = 's' ∨ ch = 'S' then (if x < ROW - 2 then x + 1 else x, y)
  else if ch = 'a' ∨ ch = 'A' then (x, if 1 < y then y - 1 else y)
  else if ch = 'd' ∨ ch = 'D' then (x, if y < COLUMN - 2 then y + 1 else y)
  else (x, y)

/-- Does the key end the game? -/
def Quits (ch : Char) : Prop := ch = 'q' ∨ ch = 'Q'

instance (ch : Char) : Decidable (Quits ch) := inferInstanceAs (Decidable (_ ∨ _))

/-- A round of the collection loop of `input_thread_func`. -/
def pickUp (g : Game) (i : Fin NUM_GOLD) : Option Game :=
  if (g.golds i).Meets g.player_x g.player_y then do
    let map_grid ← write g.map_grid (g.golds i).pos.row (g.golds i).pos.col EMPTY_CHAR
    return collect i { g with map_grid := map_grid }
  else some g

/-- The section of `input_thread_func` for the key `ch`. -/
def input_thread_func (ch : Char) (g : Game) : Option Game := do
  let map_grid ← write g.map_grid g.player_x g.player_y EMPTY_CHAR
  let player_x := (walk ch g.player_x g.player_y).1
  let player_y := (walk ch g.player_x g.player_y).2
  let status := if Quits ch then .quit else g.game_status_code
  -- check collision with walls
  let status := (List.finRange NUM_WALLS).foldl (fun status i =>
    if (g.walls i).Hits player_x player_y then .lost else status) status
  let g := { g with
    player_x := player_x, player_y := player_y, map_grid := map_grid, game_status_code := status }
  -- check if adventurer collects a gold shard
  let g ← (List.finRange NUM_GOLD).foldlM pickUp g
  let map_grid ← write g.map_grid g.player_x g.player_y ADVENTURER
  return { g with map_grid := map_grid }

/-! ### Threads -/

inductive Thread where
  | wall (i : Fin NUM_WALLS)
  | gold (i : Fin NUM_GOLD)
  | printer
  | input
  deriving DecidableEq

/-- The threads of the game. The input of a section is the key that `getchar` returns, or nothing when
`kbhit` finds none; it is for the input thread alone. -/
def threads : Loops Thread (Option Char) Game where
  check
    | .gold i, g => g.game_status_code = .running ∧ 0 < g.shards_remaining ∧
        (g.golds i).collected = false
    | _, g => g.game_status_code = .running
  body
    | .wall i, _, g => move_walls_thread i g
    | .gold i, _, g => move_golds_thread i g
    | .printer, _, g => some g
    | .input, none, g => some g
    | .input, some ch, g => input_thread_func ch g

abbrev GameState := State Thread Game
abbrev GameLabel := Label Thread (Option Char)

/-- What `main` prints. -/
def report : Status → String
  | .won => "You win the game!!"
  | .lost => "You lose the game!!"
  | .quit => "You exit the game."
  | .running => ""

end Csc3150.Adventure
