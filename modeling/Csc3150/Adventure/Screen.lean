/-
**The map shows the state.**

* `Shows.after` — every section keeps the borders and draws the rows without walls as they are;
* `map_shows_state` — so in every reachable state, and no section leaves `map_grid`.
-/

import Csc3150.Adventure.Shards

namespace Csc3150.Adventure

open Monitor Transition

/-- The borders are those of `start`, and rows without walls show the adventurer and the golds. -/
structure Shows (start g : Game) : Prop where
  border : ∀ row col, ¬ Position.OnMap ⟨row, col⟩ → g.map_grid row col = start.map_grid row col
  plain : ∀ row col, Position.OnMap ⟨row, col⟩ → (∀ i, row ≠ wall_rows i) →
    g.map_grid row col = shown g row col

section Shows

variable {start g g' : Game} {row col : Int}

/-- A cell shows the same when the adventurer has not come or gone, nor a gold. -/
theorem shown_congr (player : (row = g'.player_x ∧ col = g'.player_y) ↔
      (row = g.player_x ∧ col = g.player_y))
    (golds : ∀ i, ((g'.golds i).collected = false ∧ (g'.golds i).pos = ⟨row, col⟩) ↔
      ((g.golds i).collected = false ∧ (g.golds i).pos = ⟨row, col⟩)) :
    shown g' row col = shown g row col := by
  rw [shown, shown]
  exact if_congr player rfl (if_congr (exists_congr golds) rfl rfl)

/-- A wall changes its own row. -/
theorem wallGrid_apply {wall : Wall} (onMap : wall.pos.OnMap) (grid : Grid)
    (ends : grid wall.pos.row COLUMN = '\x00')
    (away : row = wall.pos.row → ¬ Position.OnMap ⟨row, col⟩) :
    wallGrid wall grid row col = grid row col := by
  have outside : ∀ {pos : Position}, pos.OnMap → pos.row = wall.pos.row →
      (row, col) ∉ drawnCells pos := by
    intro pos inside same member
    obtain ⟨j, small, here⟩ := List.mem_map.mp member
    have columns := drawnCol_inside inside (List.mem_range.mp small)
    obtain ⟨rfl, rfl⟩ := Prod.mk.inj here
    exact away same ⟨inside.1, columns⟩
  rw [wallGrid, Grid.set_apply, Grid.fill_apply, Grid.fill_apply,
    if_neg (outside (Wall.move_onMap onMap) rfl), if_neg (outside onMap rfl)]
  split_ifs with last
  · rw [last.1, last.2, ends]
  · rfl

theorem Shows.ends (shows : Shows start g)
    (starts : ∀ row, 0 ≤ row → row < ROW → start.map_grid row COLUMN = '\x00') {pos : Position}
    (onMap : pos.OnMap) : g.map_grid pos.row COLUMN = '\x00' := by
  have width : COLUMN = 49 := rfl
  have height : ROW = 17 := rfl
  obtain ⟨rows, -⟩ := onMap
  rw [shows.border, starts pos.row (by omega) (by omega)]
  intro last
  have := last.2.2
  dsimp only at this
  omega

theorem Shows.movedWall (shows : Shows start g) (placed : Placed g)
    (starts : ∀ row, 0 ≤ row → row < ROW → start.map_grid row COLUMN = '\x00') (i : Fin NUM_WALLS) :
    Shows start (movedWall i g) := by
  have onMap := placed.wall i
  have ends := shows.ends starts onMap
  refine ⟨fun row col outside => ?_, fun row col inside plain => ?_⟩
  · rw [← shows.border row col outside]
    exact wallGrid_apply onMap _ ends fun _ => outside
  · refine Eq.trans ?_ (shows.plain row col inside plain)
    exact wallGrid_apply onMap _ ends fun same =>
      absurd (same.trans (placed.wallRow i)) (plain i)

/-- Picking up golds changes the adventurer's cell alone. -/
theorem foldl_picked_apply (items : List (Fin NUM_GOLD)) (g : Game)
    (away : ¬ (row = g.player_x ∧ col = g.player_y)) :
    (items.foldl picked g).map_grid row col = g.map_grid row col := by
  induction items generalizing g with
  | nil => rfl
  | cons i rest ih =>
    obtain ⟨x, y, -⟩ := picked_still g i
    rw [List.foldl_cons, ih _ (by rwa [x, y]), picked]
    split_ifs
    · exact if_neg away
    · rfl

theorem Shows.entered (shows : Shows start g) (placed : Placed g) (accounts : Accounts g)
    (ch : Char) : Shows start (entered ch g) := by
  obtain ⟨x, y, -⟩ := foldl_picked_still (List.finRange NUM_GOLD) (walked ch g)
  have collects := foldl_picked_collects (List.finRange NUM_GOLD) (walked ch g)
  have next := walk_onMap placed.player ch
  have map : ∀ row col, (Adventure.entered ch g).map_grid row col =
      if row = (walked ch g).player_x ∧ col = (walked ch g).player_y then ADVENTURER
      else if row = g.player_x ∧ col = g.player_y then EMPTY_CHAR else g.map_grid row col := by
    intro row col
    show ((List.finRange NUM_GOLD).foldl picked (walked ch g)).map_grid.set _ _ _ row col = _
    rw [Grid.set_apply, x, y]
    split_ifs with here there
    · rfl
    · rw [foldl_picked_apply _ _ here]
      exact if_pos there
    · rw [foldl_picked_apply _ _ here]
      exact if_neg there
  have golds : ∀ row col, ¬ (row = (walked ch g).player_x ∧ col = (walked ch g).player_y) → ∀ i,
      (((Adventure.entered ch g).golds i).collected = false ∧
        ((Adventure.entered ch g).golds i).pos = ⟨row, col⟩) ↔
      (g.golds i).collected = false ∧ (g.golds i).pos = ⟨row, col⟩ := by
    intro row col away i
    show ((((List.finRange NUM_GOLD).foldl picked (walked ch g)).golds i).collected = false ∧ _) ↔ _
    rw [show ((Adventure.entered ch g).golds i).pos = (g.golds i).pos from collects.pos i]
    refine and_congr_left fun pos => ⟨fun free => ?_, fun free => ?_⟩
    · cases collected : (g.golds i).collected with
      | false => rfl
      | true =>
        rw [collects.kept i collected] at free
        cases free
    · cases collected : (((List.finRange NUM_GOLD).foldl picked (walked ch g)).golds i).collected with
      | false => rfl
      | true =>
        obtain ⟨rfl, rfl⟩ := Position.mk.inj (pos.symm.trans (collects.met i free collected))
        exact absurd ⟨rfl, rfl⟩ away
  refine ⟨fun row col outside => ?_, fun row col inside plain => ?_⟩
  · rw [map, if_neg, if_neg, shows.border row col outside]
    · rintro ⟨rfl, rfl⟩
      exact outside placed.player
    · rintro ⟨rfl, rfl⟩
      exact outside next
  · rw [map, shown, show (Adventure.entered ch g).player_x = _ from x,
      show (Adventure.entered ch g).player_y = _ from y]
    by_cases here : row = (walked ch g).player_x ∧ col = (walked ch g).player_y
    · rw [if_pos here, if_pos here]
    · rw [if_neg here, if_neg here]
      by_cases old : row = g.player_x ∧ col = g.player_y
      · rw [if_pos old, if_neg]
        rintro ⟨i, gold⟩
        obtain ⟨free, pos⟩ := (golds row col here i).mp gold
        exact accounts.apart i ⟨free, by rw [pos, old.1], by rw [pos, old.2]⟩
      · rw [if_neg old, shows.plain row col inside plain, shown, if_neg old]
        exact if_congr (exists_congr fun i => (golds row col here i).symm) rfl rfl

/-- In the row of a gold there is no other gold. -/
theorem shown_row (placed : Placed g) (i : Fin NUM_GOLD) :
    shown g (gold_rows i) col =
      if gold_rows i = g.player_x ∧ col = g.player_y then ADVENTURER
      else if (g.golds i).collected = false ∧ col = (g.golds i).pos.col then GOLD_CHAR
      else EMPTY_CHAR := by
  refine if_congr Iff.rfl rfl (if_congr ⟨?_, ?_⟩ rfl rfl)
  · rintro ⟨j, free, pos⟩
    have isI : j = i := gold_rows_injective (by rw [← placed.goldRow j, pos])
    subst isI
    exact ⟨free, by rw [pos]⟩
  · rintro ⟨free, same⟩
    exact ⟨i, free, by rw [same, ← placed.goldRow i]⟩

/-- The cell of a gold that is left shows it. -/
theorem Shows.gold (shows : Shows start g) (placed : Placed g) (accounts : Accounts g)
    {i : Fin NUM_GOLD} (free : (g.golds i).collected = false) :
    g.map_grid (gold_rows i) (g.golds i).pos.col = GOLD_CHAR := by
  have onMap : Position.OnMap ⟨gold_rows i, (g.golds i).pos.col⟩ := by
    rw [← placed.goldRow i]
    exact placed.gold i
  rw [shows.plain _ _ onMap (gold_rows_ne_wall_rows i), shown_row placed, if_neg,
    if_pos ⟨free, rfl⟩]
  rintro ⟨x, y⟩
  exact accounts.apart i ⟨free, by rw [placed.goldRow, x], y.symm⟩

theorem movedGold_free (i : Fin NUM_GOLD) (g : Game) :
    ((movedGold i g).golds i).collected = false ↔
      (g.golds i).collected = false ∧ ¬ (g.golds i).move.Meets g.player_x g.player_y := by
  have self : Function.update g.golds i (g.golds i).move i = (g.golds i).move :=
    Function.update_self _ _ _
  rw [movedGold]
  split_ifs with meets
  · rw [collect_self]
    exact iff_of_false Bool.false_ne_true.symm fun both => both.2 meets
  · dsimp only
    rw [self]
    exact (and_iff_left meets).symm

/-- The row of gold `i` when it has moved. -/
theorem goldGrid_row (shows : Shows start g) (placed : Placed g) (accounts : Accounts g)
    (i : Fin NUM_GOLD) (inside : Position.OnMap ⟨gold_rows i, col⟩) :
    goldGrid i g (gold_rows i) col =
      if gold_rows i = g.player_x ∧ col = g.player_y then ADVENTURER
      else if ((movedGold i g).golds i).collected = false ∧ col = (g.golds i).move.pos.col
      then GOLD_CHAR
      else EMPTY_CHAR := by
  have row : (g.golds i).pos.row = gold_rows i := placed.goldRow i
  have row' : (g.golds i).move.pos.row = gold_rows i := row
  have plain := fun col inside => shows.plain (gold_rows i) col inside (gold_rows_ne_wall_rows i)
  have notLast : col ≠ COLUMN := fun last => by
    have width : COLUMN = 49 := rfl
    have := inside.2.2
    dsimp only at this
    omega
  have next : Position.OnMap ⟨gold_rows i, (g.golds i).move.pos.col⟩ := by
    rw [← row']
    exact Gold.move_onMap (placed.gold i)
  have onMap : Position.OnMap ⟨gold_rows i, (g.golds i).pos.col⟩ := by
    rw [← row]
    exact placed.gold i
  rw [goldGrid, Grid.set_apply, if_neg fun both => notLast both.2, row, row']
  cases free : (g.golds i).collected with
  | true =>
    -- a gold that is collected is not on the map
    have same : ¬ ((movedGold i g).golds i).collected = false := fun here => by
      rw [((movedGold_free i g).mp here).1] at free
      cases free
    have old : g.map_grid (gold_rows i) (g.golds i).pos.col ≠ GOLD_CHAR := by
      rw [plain _ onMap, shown_row placed, free]
      split_ifs with _ gold
      · decide
      · cases gold.1
      · decide
    rw [if_neg old, if_neg fun both => same both.1, plain col inside, shown_row placed, free]
    refine if_congr Iff.rfl rfl (Eq.trans (if_neg ?_) (if_neg fun both => same both.1).symm)
    exact fun both => Bool.false_ne_true both.1.symm
  | false =>
    have apart : ¬ (gold_rows i = g.player_x ∧ (g.golds i).pos.col = g.player_y) := fun both =>
      accounts.apart i ⟨free, by rw [row, both.1], both.2.symm⟩
    have meets : (g.golds i).move.Meets g.player_x g.player_y ↔
        gold_rows i = g.player_x ∧ (g.golds i).move.pos.col = g.player_y := by
      rw [Gold.Meets, row']
      exact (and_iff_right free).trans (and_congr eq_comm eq_comm)
    have erased : ∀ col, Position.OnMap ⟨gold_rows i, col⟩ →
        g.map_grid.set (gold_rows i) (g.golds i).pos.col EMPTY_CHAR (gold_rows i) col =
          if gold_rows i = g.player_x ∧ col = g.player_y then ADVENTURER else EMPTY_CHAR := by
      intro col inside
      rw [Grid.set_apply, plain col inside, shown_row placed, free]
      by_cases old : col = (g.golds i).pos.col
      · subst old
        rw [if_pos ⟨rfl, rfl⟩, if_neg apart]
      · rw [if_neg fun both => old both.2]
        exact if_congr Iff.rfl rfl (if_neg fun both => old both.2)
    rw [if_pos (shows.gold placed accounts free), erased _ next]
    by_cases met : (g.golds i).move.Meets g.player_x g.player_y
    · have gone : ¬ ((movedGold i g).golds i).collected = false := fun here =>
        ((movedGold_free i g).mp here).2 met
      rw [if_neg fun both => gone both.1, erased col inside]
      exact if_congr Iff.rfl rfl (if_neg fun both => gone both.1).symm
    · have still := (movedGold_free i g).mpr ⟨free, met⟩
      rw [if_neg (c := gold_rows i = g.player_x ∧ _) (mt meets.mpr met), if_pos ⟨still, rfl⟩,
        Grid.set_apply, erased col inside]
      by_cases here : col = (g.golds i).move.pos.col
      · subst here
        rw [if_pos ⟨rfl, rfl⟩, if_neg (mt meets.mpr met), if_pos ⟨still, rfl⟩]
      · rw [if_neg fun both => here both.2]
        exact if_congr Iff.rfl rfl (if_neg fun both => here both.2).symm

theorem Shows.movedGold (shows : Shows start g) (placed : Placed g) (accounts : Accounts g)
    (starts : ∀ row, 0 ≤ row → row < ROW → start.map_grid row COLUMN = '\x00') (i : Fin NUM_GOLD) :
    Shows start { movedGold i g with map_grid := goldGrid i g } := by
  have onMap := placed.gold i
  have next := Gold.move_onMap onMap
  have ends := shows.ends starts next
  have row : (g.golds i).pos.row = gold_rows i := placed.goldRow i
  have placed' := placed.after (.gold i) none
  obtain ⟨x, y, -⟩ := movedGold_still i g
  -- cells of other rows and of the borders are not touched
  have away : ∀ row col, (row = gold_rows i → ¬ Position.OnMap ⟨row, col⟩) →
      goldGrid i g row col = g.map_grid row col := by
    intro r c outside
    have apart : ∀ {pos : Position}, pos.OnMap → pos.row = gold_rows i →
        ¬ (r = pos.row ∧ c = pos.col) := by
      rintro pos inside same ⟨rfl, rfl⟩
      exact outside same inside
    have old : ∀ ch, g.map_grid.set (g.golds i).pos.row (g.golds i).pos.col ch r c = g.map_grid r c :=
      fun ch => if_neg (apart onMap row)
    have new : ∀ grid : Grid, ∀ ch,
        grid.set (g.golds i).move.pos.row (g.golds i).move.pos.col ch r c = grid r c :=
      fun grid ch => if_neg (apart next row)
    rw [goldGrid, Grid.set_apply]
    by_cases last : r = (g.golds i).move.pos.row ∧ c = COLUMN
    · rw [if_pos last, last.1, last.2, ends]
    · rw [if_neg last]
      split_ifs
      · rw [new, old]
      · exact old _
      · exact new _ _
      · rfl
  refine ⟨fun row col outside => ?_, fun r c inside plain => ?_⟩
  · rw [← shows.border row col outside]
    exact away row col fun _ => outside
  · show goldGrid i g r c = _
    by_cases isRow : r = gold_rows i
    · subst isRow
      rw [goldGrid_row shows placed accounts i inside]
      show _ = shown (Adventure.after (.gold i) none g) (gold_rows i) c
      rw [shown_row placed' i]
      show _ = if _ = (Adventure.movedGold i g).player_x ∧ _ = (Adventure.movedGold i g).player_y
        then _ else if ((Adventure.movedGold i g).golds i).collected = false ∧
          c = ((Adventure.movedGold i g).golds i).pos.col then _ else _
      rw [x, y, movedGold_pos]
    · rw [away r c fun same => absurd same isRow, shows.plain r c inside plain]
      refine (shown_congr ?_ fun j => ?_).symm
      · show r = (Adventure.movedGold i g).player_x ∧ c = (Adventure.movedGold i g).player_y ↔ _
        rw [x, y]
      · show (((Adventure.movedGold i g).golds j).collected = false ∧
          ((Adventure.movedGold i g).golds j).pos = _) ↔ _
        by_cases isI : j = i
        · subst isI
          refine iff_of_false ?_ ?_
          · rintro ⟨-, pos⟩
            rw [movedGold_pos] at pos
            exact isRow ((congrArg Position.row pos).symm.trans row)
          · rintro ⟨-, pos⟩
            exact isRow (by rw [← row, pos])
        · rw [movedGold_pos_of_ne isI]

/-- Every section keeps the borders and draws what has changed. -/
theorem Shows.after (shows : Shows start g) (placed : Placed g) (accounts : Accounts g)
    (starts : ∀ row, 0 ≤ row → row < ROW → start.map_grid row COLUMN = '\x00') (thread : Thread)
    (key : Option Char) : Shows start (after thread key g) := by
  cases thread with
  | wall i => exact shows.movedWall placed starts i
  | gold i => exact shows.movedGold placed accounts starts i
  | printer => exact shows
  | input =>
    cases key with
    | none => exact shows
    | some ch => exact shows.entered placed accounts ch

end Shows

/-- **The map shows the state.** The game is set up inside `map_grid`; and in every reachable state, no
section of any thread accesses `map_grid` out of bounds, every cell of the borders and of the last column
is as it was at the start, and every other cell of a row without walls shows the adventurer, a gold that
is left, or nothing. -/
theorem map_shows_state (wallRand goldRand : Nat → Nat) :
    ∃ g, init wallRand goldRand = some g ∧
      ∀ labels s, Run threads.Step (Loops.start g) labels s →
        (∀ thread key, threads.body thread key s.shared ≠ none) ∧
        (∀ row col, Inside row col →
          row = 0 ∨ row = ROW - 1 ∨ col = 0 ∨ col = COLUMN - 1 ∨ col = COLUMN →
          s.shared.map_grid row col = g.map_grid row col) ∧
        ∀ row col, 0 < row → row < ROW - 1 → 0 < col → col < COLUMN - 1 →
          (∀ i, (s.shared.walls i).pos.row ≠ row) →
          s.shared.map_grid row col = shown s.shared row col := by
  have width : COLUMN = 49 := rfl
  obtain ⟨g, start, initial⟩ := init_eq wallRand goldRand
  refine ⟨g, start, fun labels s run => ?_⟩
  have shows : (Placed s.shared ∧ Accounts s.shared) ∧ Shows g s.shared := by
    refine Loops.shared_invariant (fun g' => (Placed g' ∧ Accounts g') ∧ Shows g g')
      (fun thread key g₁ g₂ here body => ?_)
      ⟨⟨initial.toPlaced, initial.accounts⟩, fun _ _ _ => rfl, initial.map⟩ run
    rw [here.1.1.body] at body
    cases body
    exact ⟨⟨here.1.1.after thread key, (here.1.2.after thread key).1⟩,
      here.2.after here.1.1 here.1.2 initial.ends thread key⟩
  obtain ⟨⟨placed, -⟩, shows⟩ := shows
  refine ⟨fun thread key => ?_, fun row col _ border => shows.border row col ?_,
    fun row col lower upper left right plain => shows.plain row col ?_ fun i same => ?_⟩
  · rw [placed.body]
    exact Option.some_ne_none _
  · rintro ⟨⟨lower, upper⟩, left, right⟩
    dsimp only at lower upper left right
    omega
  · exact ⟨⟨lower, upper⟩, left, right⟩
  · exact plain i (by rw [placed.wallRow, same])

/-- Three steps up: the adventurer is in the row of a gold and has collected it. -/
theorem map_shows_state_small :
    ∃ g s, init (fun _ => 0) (fun _ => 23) = some g ∧
      Run threads.Step (Loops.start g) (press ['w', 'w', 'w']) s ∧
      s.shared.map_grid 5 24 = shown s.shared 5 24 := by
  obtain ⟨g, start, all⟩ := map_shows_state (fun _ => 0) (fun _ => 23)
  have performed : ((init (fun _ => 0) (fun _ => 23)).bind fun g =>
      (press ['w', 'w', 'w']).foldlM threads.next (Loops.start g)).any fun s =>
        decide (∀ i, (s.shared.walls i).pos.row ≠ 5) := by
    decide +kernel
  obtain ⟨s, found, away⟩ := (Option.any_eq_true _ _).mp performed
  rw [start, Option.bind_some] at found
  have run := Loops.run_of_performed found
  exact ⟨g, s, start, run, (all _ s run).2.2 5 24 (by decide) (by decide) (by decide) (by decide)
    (of_decide_eq_true away)⟩

end Csc3150.Adventure
