/-
**Gold accounting.**

`Collects g g'` says what collecting golds does; `Accounts` holds of the game between sections.

* `gold_accounts` — in every reachable state `shards_remaining` is the number of golds not collected, none
  of them is where the adventurer is, golds are collected once and where they are met, and the game is won
  by the last one.
-/

import Csc3150.Adventure.Start
import Mathlib.Data.Fintype.Card

namespace Csc3150.Adventure

open Monitor Transition

/-- The number of golds that are not collected. -/
def left (g : Game) : Nat := (Finset.univ.filter fun i => (g.golds i).collected = false).card

/-- Golds are collected where the adventurer is, and the last one wins. -/
structure Collects (g g' : Game) : Prop where
  player : g'.player_x = g.player_x ∧ g'.player_y = g.player_y
  pos : ∀ i, (g'.golds i).pos = (g.golds i).pos
  kept : ∀ i, (g.golds i).collected = true → (g'.golds i).collected = true
  met : ∀ i, (g.golds i).collected = false → (g'.golds i).collected = true →
    (g.golds i).pos = ⟨g.player_x, g.player_y⟩
  less : left g' ≤ left g
  shards : g.shards_remaining = left g → g'.shards_remaining = left g'
  last : g.shards_remaining = left g → 0 < left g → left g' = 0 → g'.game_status_code = .won
  before : g.shards_remaining = left g → ¬ (0 < left g ∧ left g' = 0) →
    g'.game_status_code = g.game_status_code

namespace Collects

variable {g g' g'' : Game}

theorem refl (g : Game) : Collects g g where
  player := ⟨rfl, rfl⟩
  pos _ := rfl
  kept _ collected := collected
  met i free collected := by
    rw [free] at collected
    cases collected
  less := le_rfl
  shards books := books
  last _ some none := by omega
  before _ _ := rfl

theorem trans (first : Collects g g') (second : Collects g' g'') : Collects g g'' where
  player := ⟨second.player.1.trans first.player.1, second.player.2.trans first.player.2⟩
  pos i := (second.pos i).trans (first.pos i)
  kept i collected := second.kept i (first.kept i collected)
  met i free collected := by
    cases between : (g'.golds i).collected with
    | true => exact first.met i free between
    | false =>
      have here := second.met i between collected
      rwa [first.pos, first.player.1, first.player.2] at here
  less := second.less.trans first.less
  shards books := second.shards (first.shards books)
  last books some none := by
    by_cases early : left g' = 0
    · rw [second.before (first.shards books) fun both => by omega]
      exact first.last books some early
    · exact second.last (first.shards books) (by omega) none
  before books not := by
    have := first.less
    have := second.less
    rw [second.before (first.shards books) fun both => not ⟨by omega, both.2⟩,
      first.before books fun both => not ⟨both.1, by omega⟩]

/-- The map plays no part. -/
theorem withMap (grid grid' : Grid) (collects : Collects { g with map_grid := grid } g') :
    Collects g { g' with map_grid := grid' } :=
  ⟨collects.player, collects.pos, collects.kept, collects.met, collects.less, collects.shards,
    collects.last, collects.before⟩

/-- Collecting a gold that is met. -/
theorem collect {i : Fin NUM_GOLD} (meets : (g.golds i).Meets g.player_x g.player_y) :
    Collects g (Adventure.collect i g) := by
  have one : left (Adventure.collect i g) + 1 = left g := by
    have same : (Finset.univ.filter fun j => ((Adventure.collect i g).golds j).collected = false) =
        (Finset.univ.filter fun j => (g.golds j).collected = false).erase i := by
      ext j
      rw [Finset.mem_filter, Finset.mem_erase, Finset.mem_filter]
      by_cases isI : j = i
      · subst isI
        rw [collect_self]
        simp
      · rw [collect_of_ne isI]
        simp [isI]
    have member : i ∈ Finset.univ.filter fun j => (g.golds j).collected = false := by
      rw [Finset.mem_filter]
      exact ⟨Finset.mem_univ i, meets.1⟩
    rw [left, same]
    exact Finset.card_erase_add_one member
  refine ⟨⟨rfl, rfl⟩, fun j => collect_pos i j g, fun j collected => ?_, fun j free collected => ?_,
    by omega, fun books => ?_, fun books _ none => ?_, fun books not => ?_⟩
  · by_cases isI : j = i
    · rw [isI, collect_self]
    · rwa [collect_of_ne isI]
  · by_cases isI : j = i
    · rw [isI, meets.2.1, meets.2.2]
    · rw [collect_of_ne isI, free] at collected
      cases collected
  · show g.shards_remaining - 1 = _
    omega
  · refine if_pos ?_
    omega
  · refine if_neg ?_
    omega

end Collects

/-! ### Sections -/

/-- The books are in order. -/
structure Accounts (g : Game) : Prop where
  books : g.shards_remaining = left g
  apart : ∀ i, ¬ (g.golds i).Meets g.player_x g.player_y
  won : g.game_status_code = .won → left g = 0

/-- What a section may do to the golds. -/
structure Collected (g g' : Game) : Prop where
  once : ∀ i, (g.golds i).collected = true → (g'.golds i).collected = true
  met : ∀ i, (g.golds i).collected = false → (g'.golds i).collected = true →
    (g'.golds i).pos = ⟨g'.player_x, g'.player_y⟩
  won : g.game_status_code ≠ .won ∧ g'.game_status_code = .won ↔ 0 < left g ∧ left g' = 0

/-- A section that moves things to `middle` and then collects golds. -/
theorem Accounts.collects {g g' : Game} (accounts : Accounts g) (middle : Game)
    (flags : ∀ i, (middle.golds i).collected = (g.golds i).collected)
    (shards : middle.shards_remaining = g.shards_remaining)
    (status : middle.game_status_code = .won → g.game_status_code = .won)
    (collects : Collects middle g') (apart : ∀ i, ¬ (g'.golds i).Meets g'.player_x g'.player_y) :
    Accounts g' ∧ Collected g g' := by
  have same : left middle = left g := by
    unfold left
    simp only [flags]
  have books : middle.shards_remaining = left middle := by
    rw [shards, accounts.books, same]
  have less := collects.less
  refine ⟨⟨collects.shards books, apart, fun won => ?_⟩, ⟨fun i collected => ?_,
    fun i free collected => ?_, ?_, ?_⟩⟩
  · by_cases last : 0 < left middle ∧ left g' = 0
    · exact last.2
    · rw [collects.before books last] at won
      have := accounts.won (status won)
      omega
  · exact collects.kept i ((flags i).trans collected)
  · rw [collects.pos, collects.player.1, collects.player.2]
    exact collects.met i ((flags i).trans free) collected
  · rintro ⟨fresh, won⟩
    by_contra not
    rw [collects.before books (by rwa [same])] at won
    exact fresh (status won)
  · rintro ⟨some, none⟩
    refine ⟨fun won => ?_, collects.last books (by rwa [same]) none⟩
    have := accounts.won won
    omega

theorem movedGold_collects (i : Fin NUM_GOLD) (g : Game) :
    Collects { g with golds := Function.update g.golds i (g.golds i).move } (movedGold i g) := by
  rw [movedGold]
  split_ifs with meets
  · refine Collects.collect (i := i) ?_
    dsimp only
    rwa [Function.update_self]
  · exact .refl _

theorem foldl_picked_collects (items : List (Fin NUM_GOLD)) (g : Game) :
    Collects g (items.foldl picked g) := by
  induction items generalizing g with
  | nil => exact .refl g
  | cons i rest ih =>
    refine .trans ?_ (ih (picked g i))
    rw [picked]
    split_ifs with meets
    · exact Collects.withMap _ _ (Collects.collect (g := { g with
        map_grid := g.map_grid.set g.player_x g.player_y EMPTY_CHAR }) meets)
    · exact .refl g

/-- The loop picks up every gold that it comes to. -/
theorem foldl_picked_apart (items : List (Fin NUM_GOLD)) (g : Game) {i : Fin NUM_GOLD}
    (member : i ∈ items) : ¬ ((items.foldl picked g).golds i).Meets g.player_x g.player_y := by
  induction items generalizing g with
  | nil => cases member
  | cons j rest ih =>
    obtain ⟨x, y, -⟩ := picked_still g j
    rw [List.foldl_cons]
    by_cases later : i ∈ rest
    · have here := ih (picked g j) later
      rwa [x, y] at here
    · obtain rfl := (List.mem_cons.mp member).resolve_right later
      intro meets
      have collects := foldl_picked_collects rest (picked g i)
      have free : ((picked g i).golds i).collected = false := by
        cases collected : ((picked g i).golds i).collected with
        | false => rfl
        | true =>
          have := collects.kept i collected
          rw [meets.1] at this
          cases this
      rw [picked] at free
      split_ifs at free with here
      · rw [collect_self] at free
        cases free
      · refine here ⟨free, ?_, ?_⟩
        · have := meets.2.1
          rwa [collects.pos, picked, if_neg here] at this
        · have := meets.2.2
          rwa [collects.pos, picked, if_neg here] at this

/-- Every section keeps the books. -/
theorem Accounts.after {g : Game} (accounts : Accounts g) (thread : Thread) (key : Option Char) :
    Accounts (after thread key g) ∧ Collected g (after thread key g) := by
  cases thread with
  | printer => exact accounts.collects g (fun _ => rfl) rfl id (.refl g) accounts.apart
  | wall i =>
    refine accounts.collects (movedWall i g) (fun _ => rfl) rfl (fun won => ?_) (.refl _)
      accounts.apart
    rw [movedWall] at won
    dsimp only at won
    split_ifs at won
    exact won
  | gold i =>
    have flags : ∀ j, (Function.update g.golds i (g.golds i).move j).collected =
        (g.golds j).collected := by
      intro j
      by_cases isI : j = i
      · rw [isI, Function.update_self]
        rfl
      · rw [Function.update_of_ne isI]
    have collects : Collects { g with golds := Function.update g.golds i (g.golds i).move }
        { movedGold i g with map_grid := goldGrid i g } :=
      Collects.withMap g.map_grid _ (movedGold_collects i g)
    refine accounts.collects { g with golds := Function.update g.golds i (g.golds i).move }
      flags rfl id collects fun j => ?_
    show ¬ ((movedGold i g).golds j).Meets (movedGold i g).player_x (movedGold i g).player_y
    by_cases isI : j = i
    · subst isI
      rw [movedGold]
      split_ifs with meets
      · rw [collect_self]
        exact fun here => Bool.false_ne_true here.1.symm
      · dsimp only
        rwa [Function.update_self]
    · obtain ⟨x, y, -⟩ := movedGold_still i g
      rw [movedGold_pos_of_ne isI, x, y]
      exact accounts.apart j
  | input =>
    cases key with
    | none => exact accounts.collects g (fun _ => rfl) rfl id (.refl g) accounts.apart
    | some ch =>
      have collects := foldl_picked_collects (List.finRange NUM_GOLD) (walked ch g)
      refine accounts.collects (walked ch g) (fun _ => rfl) rfl (fun won => ?_)
        (Collects.withMap (walked ch g).map_grid _ collects) fun i => ?_
      · rw [walked] at won
        dsimp only at won
        split_ifs at won
        exact won
      · have apart := foldl_picked_apart _ (walked ch g) (List.mem_finRange i)
        rw [← collects.player.1, ← collects.player.2] at apart
        exact apart

/-! ### Runs -/

theorem Initial.accounts {g : Game} (initial : Initial g) : Accounts g where
  books := by
    rw [initial.shards]
    simp [Adventure.left, initial.left]
  apart i meets := by
    have row := initial.goldRow i
    have middle : ∀ i, gold_rows i ≠ 8 := by decide
    rw [← meets.2.1, initial.adventurer.1] at row
    exact middle i row.symm
  won won := by
    rw [initial.running] at won
    cases won

variable {wallRand goldRand : Nat → Nat} {g : Game} {labels : List GameLabel} {s s' : GameState}
  {label : GameLabel}

/-- Every run keeps everything on the map and the books in order. -/
theorem accounts_of_run (placed : Placed s.shared) (accounts : Accounts s.shared)
    (run : Run threads.Step s labels s') : Placed s'.shared ∧ Accounts s'.shared := by
  refine Loops.shared_invariant (fun g => Placed g ∧ Accounts g)
    (fun thread key g g' here body => ?_) ⟨placed, accounts⟩ run
  rw [here.1.body] at body
  cases body
  exact ⟨here.1.after thread key, (here.2.after thread key).1⟩

theorem reachable_accounts (start : init wallRand goldRand = some g)
    (run : Run threads.Step (Loops.start g) labels s) : Placed s.shared ∧ Accounts s.shared := by
  obtain ⟨g', same, initial⟩ := init_eq wallRand goldRand
  rw [start] at same
  cases same
  exact accounts_of_run initial.toPlaced initial.accounts run

/-- **Gold accounting is exact.** In every reachable state, `shards_remaining` is the number of golds
that are not collected, and no such gold is in the adventurer's cell. In every step from there a collected
gold stays collected, a gold that is collected is then in the adventurer's cell, and the game becomes won
exactly when the last gold is collected. -/
theorem gold_accounts (start : init wallRand goldRand = some g)
    (run : Run threads.Step (Loops.start g) labels s) :
    (s.shared.shards_remaining = left s.shared ∧ 0 ≤ s.shared.shards_remaining) ∧
    (∀ i, (s.shared.golds i).collected = false →
      (s.shared.golds i).pos ≠ ⟨s.shared.player_x, s.shared.player_y⟩) ∧
    ∀ label s', threads.Step s label s' →
      (∀ i, (s.shared.golds i).collected = true → (s'.shared.golds i).collected = true) ∧
      (∀ i, (s.shared.golds i).collected = false → (s'.shared.golds i).collected = true →
        (s'.shared.golds i).pos = ⟨s'.shared.player_x, s'.shared.player_y⟩) ∧
      (s.shared.game_status_code ≠ .won ∧ s'.shared.game_status_code = .won ↔
        0 < left s.shared ∧ left s'.shared = 0) := by
  obtain ⟨placed, accounts⟩ := reachable_accounts start run
  refine ⟨⟨accounts.books, ?_⟩, fun i free same => accounts.apart i ⟨free, ?_, ?_⟩,
    fun label s' step => ?_⟩
  · rw [accounts.books]
    exact Int.natCast_nonneg _
  · rw [same]
  · rw [same]
  · have collected : Collected s.shared s'.shared := by
      rcases step.cases with ⟨-, -, same⟩ | ⟨thread, key, -, -, body⟩
      · rw [same]
        exact (accounts.after .printer none).2
      · rw [placed.body] at body
        rw [← Option.some.inj body]
        exact (accounts.after thread key).2
    exact ⟨collected.once, collected.met, collected.won⟩

/-- The keys as labels, each with the check before it. -/
def press (keys : List Char) : List GameLabel :=
  keys.flatMap fun ch => [.check .input, .body .input (some ch)]

theorem gold_accounts_small :
    ∃ g s, init (fun _ => 0) (fun _ => 23) = some g ∧
      Run threads.Step (Loops.start g) (press ['w', 'w', 'w']) s ∧ s.shared.shards_remaining = 5 ∧
      s.shared.shards_remaining = left s.shared := by
  have performed : ((init (fun _ => 0) (fun _ => 23)).bind fun g =>
      (press ['w', 'w', 'w']).foldlM threads.next (Loops.start g)).any fun s =>
        decide (s.shared.shards_remaining = 5) := by
    decide +kernel
  obtain ⟨s, found, five⟩ := (Option.any_eq_true _ _).mp performed
  obtain ⟨g, start, run⟩ := Option.bind_eq_some_iff.mp found
  have run := Loops.run_of_performed run
  exact ⟨g, s, start, run, of_decide_eq_true five, (gold_accounts start run).1.1⟩

end Csc3150.Adventure
