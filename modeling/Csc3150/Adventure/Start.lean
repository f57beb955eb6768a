/-
**The initial placement.**

Whatever `rand` returns, `init_map`, `init_walls` and `init_golds` stay inside `map_grid` and leave a game
that is `Initial`: the adventurer in the middle, no wall across the right border, every gold in its row,
and the map showing all of it.
-/

import Csc3150.Adventure.Sections
import Mathlib.Data.List.ProdSigma

namespace Csc3150.Adventure

open Monitor

/-- What a cell of a row without walls is to show. -/
def shown (g : Game) (row col : Int) : Char :=
  if row = g.player_x ∧ col = g.player_y then ADVENTURER
  else if ∃ i, (g.golds i).collected = false ∧ (g.golds i).pos = ⟨row, col⟩ then GOLD_CHAR
  else EMPTY_CHAR

/-- A game that has just been set up. -/
structure Initial (g : Game) : Prop extends Placed g where
  adventurer : g.player_x = 8 ∧ g.player_y = 24
  running : g.game_status_code = .running
  shards : g.shards_remaining = NUM_GOLD
  left : ∀ i, (g.golds i).collected = false
  ends : ∀ row, 0 ≤ row → row < ROW → g.map_grid row COLUMN = '\x00'
  map : ∀ row col, Position.OnMap ⟨row, col⟩ → (∀ i, row ≠ wall_rows i) →
    g.map_grid row col = shown g row col

/-! ### The map -/

/-- The map without walls and golds. -/
def drawnMap (grid : Grid) : Grid :=
  let blank := grid.fill ((List.range 17 ×ˢ List.range 49).flatMap fun (cell : Nat × Nat) =>
    [((cell.1 : Int), (cell.2 : Int))]) EMPTY_CHAR
  let horizontal := blank.fill ((List.range 49).flatMap fun (j : Nat) =>
    [((0 : Int), (j : Int))] ++ [(ROW - 1, (j : Int))]) HORI_LINE
  let vertical := horizontal.fill ((List.range 17).flatMap fun (i : Nat) =>
    [((i : Int), (0 : Int))] ++ [((i : Int), COLUMN - 1)]) VERT_LINE
  let corners := (((vertical.set 0 0 CORNER).set 0 (COLUMN - 1) CORNER).set (ROW - 1) 0 CORNER).set
    (ROW - 1) (COLUMN - 1) CORNER
  (corners.set 8 24 ADVENTURER).fill ((List.range 17).flatMap fun (i : Nat) =>
    [((i : Int), COLUMN)]) '\x00'

theorem drawMap_eq (grid : Grid) : drawMap grid = some (drawnMap grid) := by
  have rows : ∀ {i : Nat}, i ∈ List.range 17 → 0 ≤ (i : Int) ∧ (i : Int) < ROW := fun member => by
    have height : ROW = 17 := rfl
    have := List.mem_range.mp member
    omega
  have columns : ∀ {j : Nat}, j ∈ List.range 49 → 0 ≤ (j : Int) ∧ (j : Int) < COLUMN + 1 :=
    fun member => by
      have width : COLUMN = 49 := rfl
      have := List.mem_range.mp member
      omega
  have blank : (List.range 17 ×ˢ List.range 49).foldlM (fun grid (cell : Nat × Nat) =>
      write grid cell.1 cell.2 EMPTY_CHAR) grid = some _ :=
    foldlM_fill _ (fun cell member grid => by
      obtain ⟨first, second⟩ := List.pair_mem_product.mp member
      exact write_fill ⟨rows first, columns second⟩ grid EMPTY_CHAR) grid
  have horizontal : ∀ grid, (List.range 49).foldlM (fun grid (j : Nat) => do
      let grid ← write grid 0 j HORI_LINE
      write grid (ROW - 1) j HORI_LINE) grid = some _ :=
    foldlM_fill _ fun j member grid => by
      rw [write_fill ⟨by decide, columns member⟩]
      show write _ (ROW - 1) j HORI_LINE = _
      rw [write_fill ⟨by decide, columns member⟩, ← Grid.fill_append]
  have vertical : ∀ grid, (List.range 17).foldlM (fun grid (i : Nat) => do
      let grid ← write grid i 0 VERT_LINE
      write grid i (COLUMN - 1) VERT_LINE) grid = some _ :=
    foldlM_fill _ fun i member grid => by
      rw [write_fill ⟨rows member, by decide⟩]
      show write _ i (COLUMN - 1) VERT_LINE = _
      rw [write_fill ⟨rows member, by decide⟩, ← Grid.fill_append]
  have terminators : ∀ grid, (List.range 17).foldlM (fun grid (i : Nat) =>
      write grid i COLUMN '\x00') grid = some _ :=
    foldlM_fill _ fun i member grid => write_fill ⟨rows member, by decide⟩ grid '\x00'
  have first : Inside 0 0 ∧ Inside 0 (COLUMN - 1) := by decide
  have last : Inside (ROW - 1) 0 ∧ Inside (ROW - 1) (COLUMN - 1) := by decide
  have middle : Inside 8 24 := by decide
  simp only [Option.bind_eq_bind] at horizontal vertical
  simp only [drawMap, drawnMap, Option.bind_eq_bind, Option.bind_some, blank, horizontal, vertical,
    terminators, write_inside first.1, write_inside first.2, write_inside last.1,
    write_inside last.2, write_inside middle]

/-- Off the borders, the map is empty but for the adventurer. -/
theorem drawnMap_inside (grid : Grid) {row col : Int} (inside : Position.OnMap ⟨row, col⟩) :
    drawnMap grid row col = if row = 8 ∧ col = 24 then ADVENTURER else EMPTY_CHAR := by
  have width : COLUMN = 49 := rfl
  have height : ROW = 17 := rfl
  obtain ⟨⟨lower, upper⟩, left, right⟩ := inside
  dsimp only at lower upper left right
  have covered : (row, col) ∈ (List.range 17 ×ˢ List.range 49).flatMap fun (cell : Nat × Nat) =>
      [((cell.1 : Int), (cell.2 : Int))] := by
    rw [List.mem_flatMap]
    refine ⟨(row.toNat, col.toNat), List.pair_mem_product.mpr ⟨?_, ?_⟩, ?_⟩
    · rw [List.mem_range]
      omega
    · rw [List.mem_range]
      omega
    · rw [List.mem_singleton, Prod.mk.injEq]
      omega
  have apart : ∀ {items : List Nat} {cells : Nat → List (Int × Int)},
      (∀ i, (row, col) ∉ cells i) → (row, col) ∉ items.flatMap cells := by
    intro items cells none member
    obtain ⟨i, -, here⟩ := List.mem_flatMap.mp member
    exact none i here
  rw [drawnMap]
  simp only [Grid.fill_apply, Grid.set_apply]
  rw [if_neg (apart fun i => by simp; omega)]
  refine if_congr Iff.rfl rfl ?_
  rw [if_neg (by omega), if_neg (by omega), if_neg (by omega), if_neg (by omega),
    if_neg (apart fun i => by simp; omega), if_neg (apart fun i => by simp; omega), if_pos covered]

theorem drawnMap_ends (grid : Grid) {row : Int} (lower : 0 ≤ row) (upper : row < ROW) :
    drawnMap grid row COLUMN = '\x00' := by
  have height : ROW = 17 := rfl
  refine if_pos (List.mem_flatMap.mpr ⟨row.toNat, ?_, ?_⟩)
  · rw [List.mem_range]
    omega
  · rw [List.mem_singleton, Prod.mk.injEq]
    omega

/-! ### Walls -/

theorem wall_rows_range (i : Fin NUM_WALLS) : 1 ≤ wall_rows i ∧ wall_rows i < ROW - 1 := by
  revert i
  decide

theorem gold_rows_range (i : Fin NUM_GOLD) : 1 ≤ gold_rows i ∧ gold_rows i < ROW - 1 := by
  revert i
  decide

theorem gold_rows_ne_wall_rows (i : Fin NUM_GOLD) (j : Fin NUM_WALLS) : gold_rows i ≠ wall_rows j := by
  revert i j
  decide

theorem gold_rows_injective : Function.Injective gold_rows := by
  have all : ∀ i j, gold_rows i = gold_rows j → i = j := by decide
  exact fun i j => all i j

/-- What `init_wall` leaves alone, and where it puts the wall. -/
theorem init_wall_eq (random : Nat) (g : Game) (i : Fin NUM_WALLS) :
    ∃ wall grid, init_wall random g i =
        some { g with map_grid := grid, walls := Function.update g.walls i wall } ∧
      wall.pos.row = wall_rows i ∧ wall.pos.OnMap ∧
      ∀ row col, (row = wall_rows i → ¬ Position.OnMap ⟨row, col⟩) →
        grid row col = g.map_grid row col := by
  have width : COLUMN = 49 := rfl
  have height : ROW = 17 := rfl
  have rows := wall_rows_range i
  obtain ⟨col, isCol⟩ : ∃ col : Int, col = random % (COLUMN - 15 - 2) + 1 := ⟨_, rfl⟩
  have range : 1 ≤ col ∧ col ≤ 32 := by
    have modulus : COLUMN - 15 - 2 = 32 := rfl
    rw [modulus] at isCol
    omega
  have round : ∀ j ∈ List.range 15, ∀ grid : Grid,
      (if 1 ≤ col + (j : Int) ∧ col + (j : Int) < COLUMN - 1
        then write grid (wall_rows i) (col + j) WALL_CHAR else some grid) =
      some (grid.fill [(wall_rows i, col + (j : Int))] WALL_CHAR) := by
    intro j member grid
    have small := List.mem_range.mp member
    rw [if_pos (by omega)]
    exact write_fill ⟨⟨by omega, by omega⟩, by omega, by omega⟩ grid WALL_CHAR
  refine ⟨⟨⟨wall_rows i, col⟩, if i.val % 2 = 0 then 1 else -1⟩,
    g.map_grid.fill ((List.range 15).flatMap fun (j : Nat) => [(wall_rows i, col + (j : Int))])
      WALL_CHAR, ?_, rfl, ⟨rows, ?_⟩, ?_⟩
  · rw [init_wall, ← isCol]
    dsimp only
    rw [foldlM_fill _ round]
    rfl
  · dsimp only
    omega
  · intro row column away
    refine if_neg fun member => ?_
    obtain ⟨j, small, here⟩ := List.mem_flatMap.mp member
    rw [List.mem_singleton, Prod.mk.injEq] at here
    have := List.mem_range.mp small
    obtain ⟨rfl, rfl⟩ := here
    refine away rfl ⟨rows, ?_⟩
    dsimp only
    omega

/-- `init_walls` puts every wall in its row. -/
theorem init_walls_eq (rand : Nat → Nat) (g : Game) :
    ∃ walls grid, init_walls rand g = some { g with map_grid := grid, walls := walls } ∧
      (∀ i, (walls i).pos.row = wall_rows i ∧ (walls i).pos.OnMap) ∧
      ∀ row col, (∀ i, row = wall_rows i → ¬ Position.OnMap ⟨row, col⟩) →
        grid row col = g.map_grid row col := by
  have loop : ∀ (items : List (Fin NUM_WALLS)) (g : Game),
      ∃ walls grid, items.foldlM (fun g i => init_wall (rand i.val) g i) g =
          some { g with map_grid := grid, walls := walls } ∧
        (∀ i, (walls i).pos.row = wall_rows i ∧ (walls i).pos.OnMap ∨ walls i = g.walls i) ∧
        (∀ i ∈ items, (walls i).pos.row = wall_rows i ∧ (walls i).pos.OnMap) ∧
        ∀ row col, (∀ i, row = wall_rows i → ¬ Position.OnMap ⟨row, col⟩) →
          grid row col = g.map_grid row col := by
    intro items
    induction items with
    | nil => exact fun g => ⟨g.walls, g.map_grid, rfl, fun _ => Or.inr rfl,
      fun _ member => absurd member List.not_mem_nil, fun _ _ _ => rfl⟩
    | cons i rest ih =>
      intro g
      obtain ⟨wall, grid, run, row, onMap, same⟩ := init_wall_eq (rand i.val) g i
      obtain ⟨walls, grid', run', each, all, same'⟩ :=
        ih { g with map_grid := grid, walls := Function.update g.walls i wall }
      refine ⟨walls, grid', ?_, fun j => ?_, fun j member => ?_, fun r c apart => ?_⟩
      · rw [List.foldlM_cons, run]
        exact run'
      · rcases each j with good | old
        · exact Or.inl good
        · by_cases isI : j = i
          · subst isI
            have new : walls j = wall := old.trans (Function.update_self _ _ _)
            exact Or.inl (new ▸ ⟨row, onMap⟩)
          · exact Or.inr (old.trans (Function.update_of_ne isI _ _))
      · rcases List.mem_cons.mp member with rfl | later
        · rcases each j with good | old
          · exact good
          · have new : walls j = wall := old.trans (Function.update_self _ _ _)
            exact new ▸ ⟨row, onMap⟩
        · exact all j later
      · rw [same' r c apart]
        exact same r c (apart i)
  obtain ⟨walls, grid, run, -, all, same⟩ := loop (List.finRange NUM_WALLS) g
  exact ⟨walls, grid, run, fun i => all i (List.mem_finRange i), same⟩

/-! ### Golds -/

/-- In an empty row, `init_gold` puts the gold where `rand` says. -/
theorem init_gold_eq (random random' : Nat) (g : Game) (i : Fin NUM_GOLD)
    (empty : ∀ col, Position.OnMap ⟨gold_rows i, col⟩ → g.map_grid (gold_rows i) col = EMPTY_CHAR) :
    ∃ gold, init_gold random random' g i = some { g with
        map_grid := g.map_grid.set gold.pos.row gold.pos.col GOLD_CHAR
        golds := Function.update g.golds i gold } ∧
      gold.pos.row = gold_rows i ∧ gold.pos.OnMap ∧ gold.collected = false := by
  have width : COLUMN = 49 := rfl
  obtain ⟨col, isCol⟩ : ∃ col : Int, col = random' % (COLUMN - 2) + 1 := ⟨_, rfl⟩
  have range : 1 ≤ col ∧ col ≤ 47 := by
    have modulus : COLUMN - 2 = 47 := rfl
    rw [modulus] at isCol
    omega
  have onMap : Position.OnMap ⟨gold_rows i, col⟩ := ⟨gold_rows_range i, range.1, by
    dsimp only
    omega⟩
  refine ⟨⟨⟨gold_rows i, col⟩, if random % 2 ≠ 0 then 1 else -1, false⟩, ?_, rfl, onMap, rfl⟩
  rw [init_gold]
  dsimp only
  rw [← isCol, read_inside onMap.inside]
  simp only [Option.bind_eq_bind, Option.bind_some, if_pos (empty col onMap),
    write_inside onMap.inside]
  rfl

/-- `init_golds` puts every gold in its row, on an empty map. -/
theorem init_golds_eq (rand : Nat → Nat) (g : Game)
    (empty : ∀ i col, Position.OnMap ⟨gold_rows i, col⟩ →
      g.map_grid (gold_rows i) col = EMPTY_CHAR) :
    ∃ golds grid, init_golds rand g = some { g with map_grid := grid, golds := golds } ∧
      (∀ i, (golds i).pos.row = gold_rows i ∧ (golds i).pos.OnMap ∧ (golds i).collected = false ∧
        ∀ col, Position.OnMap ⟨gold_rows i, col⟩ → grid (gold_rows i) col =
          if col = (golds i).pos.col then GOLD_CHAR else EMPTY_CHAR) ∧
      ∀ row col, (∀ i, row = gold_rows i → ¬ Position.OnMap ⟨row, col⟩) →
        grid row col = g.map_grid row col := by
  have loop : ∀ (items : List (Fin NUM_GOLD)), items.Nodup → ∀ g : Game,
      (∀ i ∈ items, ∀ col, Position.OnMap ⟨gold_rows i, col⟩ →
        g.map_grid (gold_rows i) col = EMPTY_CHAR) →
      ∃ golds grid, items.foldlM (fun g i =>
          init_gold (rand (2 * i.val)) (rand (2 * i.val + 1)) g i) g =
          some { g with map_grid := grid, golds := golds } ∧
        (∀ i ∈ items, (golds i).pos.row = gold_rows i ∧ (golds i).pos.OnMap ∧
          (golds i).collected = false ∧ ∀ col, Position.OnMap ⟨gold_rows i, col⟩ →
            grid (gold_rows i) col = if col = (golds i).pos.col then GOLD_CHAR else EMPTY_CHAR) ∧
        (∀ i, i ∉ items → golds i = g.golds i) ∧
        ∀ row col, (∀ i ∈ items, row = gold_rows i → ¬ Position.OnMap ⟨row, col⟩) →
          grid row col = g.map_grid row col := by
    intro items
    induction items with
    | nil => exact fun _ g _ => ⟨g.golds, g.map_grid, rfl,
      fun _ member => absurd member List.not_mem_nil, fun _ _ => rfl, fun _ _ _ => rfl⟩
    | cons i rest ih =>
      intro nodup g empty
      obtain ⟨fresh, nodup⟩ := List.nodup_cons.mp nodup
      have apart : ∀ j ∈ rest, gold_rows j ≠ gold_rows i := fun j member same =>
        fresh (gold_rows_injective same ▸ member)
      obtain ⟨gold, run, row, onMap, left⟩ := init_gold_eq (rand (2 * i.val)) (rand (2 * i.val + 1))
        g i (empty i List.mem_cons_self)
      obtain ⟨golds, grid, run', all, others, same⟩ := ih nodup { g with
          map_grid := g.map_grid.set gold.pos.row gold.pos.col GOLD_CHAR
          golds := Function.update g.golds i gold } fun j member col inside => by
        dsimp only
        rw [Grid.set_apply, row, if_neg fun both => apart j member both.1]
        exact empty j (List.mem_cons_of_mem _ member) col inside
      have new : golds i = gold := (others i fresh).trans (Function.update_self _ _ _)
      refine ⟨golds, grid, ?_, fun j member => ?_, fun j outside => ?_, fun r c away => ?_⟩
      · rw [List.foldlM_cons, run]
        exact run'
      · rcases List.mem_cons.mp member with rfl | later
        · rw [new]
          refine ⟨row, onMap, left, fun col inside => ?_⟩
          rw [same _ _ fun k member equal => absurd equal.symm (apart k member)]
          show g.map_grid.set _ _ _ _ _ = _
          rw [Grid.set_apply, row, empty j List.mem_cons_self col inside]
          exact if_congr (and_iff_right rfl) rfl rfl
        · exact all j later
      · rw [List.mem_cons, not_or] at outside
        exact (others j outside.2).trans (Function.update_of_ne outside.1 _ _)
      · rw [same r c fun k member => away k (List.mem_cons_of_mem _ member)]
        show g.map_grid.set _ _ _ _ _ = _
        rw [Grid.set_apply, if_neg]
        rintro ⟨rfl, rfl⟩
        exact away i List.mem_cons_self row onMap
  obtain ⟨golds, grid, run, all, -, same⟩ := loop (List.finRange NUM_GOLD) (List.nodup_finRange _) g
    fun i _ => empty i
  exact ⟨golds, grid, run, fun i => all i (List.mem_finRange i),
    fun row col away => same row col fun i _ => away i⟩

/-- The game is set up without leaving the map. -/
theorem init_eq (wallRand goldRand : Nat → Nat) :
    ∃ g, init wallRand goldRand = some g ∧ Initial g := by
  obtain ⟨start, isStart⟩ : ∃ start : Game, init_map = some start := by
    rw [init_map, drawMap_eq]
    exact ⟨_, rfl⟩
  have first : start.player_x = 8 ∧ start.player_y = 24 ∧ start.game_status_code = .running ∧
      start.shards_remaining = NUM_GOLD ∧
      (∀ row, 0 ≤ row → row < ROW → start.map_grid row COLUMN = '\x00') ∧
      ∀ row col, Position.OnMap ⟨row, col⟩ →
        start.map_grid row col = if row = 8 ∧ col = 24 then ADVENTURER else EMPTY_CHAR := by
    rw [init_map, drawMap_eq] at isStart
    cases isStart
    exact ⟨rfl, rfl, rfl, rfl, fun row => drawnMap_ends _, fun row col inside => drawnMap_inside _ inside⟩
  obtain ⟨x, y, running, shards, ends, blank⟩ := first
  have last : ∀ row, ¬ Position.OnMap ⟨row, COLUMN⟩ := fun row onMap => by
    have width : COLUMN = 49 := rfl
    have := onMap.2.2
    dsimp only at this
    omega
  obtain ⟨walls, grid, run, wall, same⟩ := init_walls_eq wallRand start
  have clear : ∀ row col, Position.OnMap ⟨row, col⟩ → (∀ i, row ≠ wall_rows i) →
      grid row col = if row = 8 ∧ col = 24 then ADVENTURER else EMPTY_CHAR := fun row col inside away =>
    (same row col fun i equal => absurd equal (away i)).trans (blank row col inside)
  have middle : ∀ i, gold_rows i ≠ 8 := by decide
  obtain ⟨golds, grid', run', gold, same'⟩ := init_golds_eq goldRand
    { start with map_grid := grid, walls := walls } fun i col inside => by
      dsimp only
      rw [clear _ _ inside fun j => gold_rows_ne_wall_rows i j, if_neg fun both => middle i both.1]
  refine ⟨{ start with map_grid := grid', walls := walls, golds := golds }, ?_,
    ⟨⟨?_, fun i => (wall i).2, fun i => (gold i).2.1, fun i => (wall i).1, fun i => (gold i).1⟩,
    ⟨x, y⟩, running, shards, fun i => (gold i).2.2.1, fun row lower upper => ?_,
    fun row col inside away => ?_⟩⟩
  · rw [init, isStart]
    show (init_walls wallRand start).bind _ = _
    rw [run]
    exact run'
  · dsimp only
    rw [x, y]
    show (1 ≤ (8 : Int) ∧ 8 < ROW - 1) ∧ 1 ≤ (24 : Int) ∧ 24 < COLUMN - 1
    decide
  · dsimp only
    rw [same' row COLUMN fun _ _ => last row]
    exact (same row COLUMN fun _ _ => last row).trans (ends row lower upper)
  · rw [shown]
    dsimp only
    rw [x, y]
    by_cases isGold : ∃ i, row = gold_rows i
    · obtain ⟨i, rfl⟩ := isGold
      have elsewhere : ¬ (gold_rows i = 8 ∧ col = 24) := fun both => middle i both.1
      rw [(gold i).2.2.2 col inside, if_neg elsewhere]
      refine if_congr ⟨?_, ?_⟩ rfl rfl
      · rintro rfl
        refine ⟨i, (gold i).2.2.1, ?_⟩
        rw [← (gold i).1]
      · rintro ⟨j, -, here⟩
        have isI : j = i := gold_rows_injective (by rw [← (gold j).1, here])
        rw [← isI, here]
    · rw [not_exists] at isGold
      rw [same' row col fun i equal => absurd equal (isGold i), if_neg (c := ∃ i, _)]
      · exact clear row col inside away
      · rintro ⟨j, -, here⟩
        exact isGold j (by rw [← (gold j).1, here])

end Csc3150.Adventure
