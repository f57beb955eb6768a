/-
**The outcome of a game.**

The threads look at `game_status_code` before they take the lock, so a section can still run after the
game is decided.

* `Spares` — what a section has to avoid in order to leave the outcome alone, and `spares_iff`;
* `outcome_changes` — the adventurer has quit, and `main` reports that the game is lost;
* `outcome_final` — the outcome is final in the runs whose sections all avoid it, and in no other.
-/

import Csc3150.Adventure.Shards

namespace Csc3150.Adventure

open Monitor Transition

/-- The section of the thread does not decide the game another way: it neither collects the last gold,
nor brings the adventurer and a wall together in a game that was not lost, nor, without such a wall, quits
a game that was not quit. -/
def Spares (g : Game) : Thread → Option Char → Prop
  | .wall i, _ => (g.walls i).move.Hits g.player_x g.player_y → g.game_status_code = .lost
  | .gold i, _ => ¬ ((g.golds i).move.Meets g.player_x g.player_y ∧ g.shards_remaining = 1)
  | .input, some ch =>
    let x := (walk ch g.player_x g.player_y).1
    let y := (walk ch g.player_x g.player_y).2
    ¬ ((∃ i, (g.golds i).Meets x y) ∧ g.shards_remaining = 1) ∧
      ((∃ i, (g.walls i).Hits x y) → g.game_status_code = .lost) ∧
      (Quits ch → (∃ i, (g.walls i).Hits x y) ∨ g.game_status_code = .quit)
  | _, _ => True

/-- A label whose section, if it is one, spares the outcome. -/
def SparesStep (g : Game) : GameLabel → Prop
  | .check _ => True
  | .body thread key => Spares g thread key

variable {g : Game}

/-! ### Sections -/

/-- A section that hits a wall loses the game. -/
theorem lost_eq_iff {hit : Prop} [Decidable hit] {status : Status} :
    (if hit then Status.lost else status) = status ↔ (hit → status = .lost) := by
  by_cases here : hit
  · rw [if_pos here]
    exact ⟨fun same _ => same.symm, fun lost => (lost here).symm⟩
  · rw [if_neg here]
    exact iff_of_true rfl fun there => absurd there here

/-- The status after walking, before golds are picked up. -/
theorem walked_status_eq_iff {ch : Char} :
    (walked ch g).game_status_code = g.game_status_code ↔
      ((∃ i, (g.walls i).Hits (walk ch g.player_x g.player_y).1
        (walk ch g.player_x g.player_y).2) → g.game_status_code = .lost) ∧
      (Quits ch → (∃ i, (g.walls i).Hits (walk ch g.player_x g.player_y).1
        (walk ch g.player_x g.player_y).2) ∨ g.game_status_code = .quit) := by
  rw [walked]
  dsimp only
  split_ifs with hit quits
  · simp [hit, eq_comm]
  · simp [hit, quits, eq_comm]
  · simp [hit, quits]

/-- The adventurer picks up the last gold exactly when one is left and he is there. -/
theorem picks_last_iff (placed : Placed g) :
    (0 < left g ∧ left ((List.finRange NUM_GOLD).foldl picked g) = 0) ↔
      (∃ i, (g.golds i).Meets g.player_x g.player_y) ∧ left g = 1 := by
  have collects := foldl_picked_collects (List.finRange NUM_GOLD) g
  constructor
  · rintro ⟨some, none⟩
    obtain ⟨i, member⟩ := Finset.card_pos.mp some
    rw [left, Finset.card_eq_zero, Finset.filter_eq_empty_iff] at none
    have here : ∀ j, (g.golds j).collected = false → (g.golds j).Meets g.player_x g.player_y := by
      intro j free
      have at_player := collects.met j free (by simpa using none (Finset.mem_univ j))
      exact ⟨free, by rw [at_player], by rw [at_player]⟩
    have met := here i (Finset.mem_filter.mp member).2
    refine ⟨⟨i, met⟩, Finset.card_eq_one.mpr ⟨i, ?_⟩⟩
    ext j
    rw [Finset.mem_filter, Finset.mem_singleton]
    refine ⟨fun free => gold_rows_injective ?_, fun same => ?_⟩
    · rw [← placed.goldRow j, ← placed.goldRow i, ← met.2.1, ← (here j free.2).2.1]
    · rw [same]
      exact ⟨Finset.mem_univ i, met.1⟩
  · rintro ⟨⟨i, met⟩, one⟩
    refine ⟨by omega, ?_⟩
    have gone := foldl_picked_apart _ g (List.mem_finRange i)
    have fewer : left ((List.finRange NUM_GOLD).foldl picked g) < left g := by
      refine Finset.card_lt_card (Finset.ssubset_iff_of_subset ?_ |>.mpr ⟨i, ?_, ?_⟩)
      · intro j member
        rw [Finset.mem_filter] at member ⊢
        refine ⟨Finset.mem_univ j, ?_⟩
        cases collected : (g.golds j).collected with
        | false => rfl
        | true =>
          have := collects.kept j collected
          rw [member.2] at this
          cases this
      · exact Finset.mem_filter.mpr ⟨Finset.mem_univ i, met.1⟩
      · intro member
        refine gone ⟨(Finset.mem_filter.mp member).2, ?_, ?_⟩
        · rw [collects.pos]
          exact met.2.1
        · rw [collects.pos]
          exact met.2.2
    omega

/-- A section leaves the outcome alone exactly when it spares it. -/
theorem spares_iff (placed : Placed g) (accounts : Accounts g) (thread : Thread)
    (key : Option Char) :
    (after thread key g).game_status_code = g.game_status_code ↔ Spares g thread key := by
  cases thread with
  | printer => exact iff_of_true rfl trivial
  | wall i => exact lost_eq_iff
  | gold i =>
    show (movedGold i g).game_status_code = _ ↔ _
    rw [movedGold, Spares]
    split_ifs with meets
    · have free : (g.golds i).collected = false := meets.1
      have some : 0 < left g := Finset.card_pos.mpr ⟨i, Finset.mem_filter.mpr ⟨Finset.mem_univ i, free⟩⟩
      rw [not_and, forall_prop_of_true meets]
      show (if g.shards_remaining - 1 = 0 then Status.won else g.game_status_code) = _ ↔ _
      by_cases last : g.shards_remaining = 1
      · rw [if_pos (by omega)]
        refine iff_of_false (fun won => ?_) fun other => other last
        have := accounts.won won.symm
        omega
      · rw [if_neg (by omega)]
        exact iff_of_true rfl last
    · exact iff_of_true rfl fun both => meets both.1
  | input =>
    cases key with
    | none => exact iff_of_true rfl trivial
    | some ch =>
      have collects := foldl_picked_collects (List.finRange NUM_GOLD) (walked ch g)
      have same : left (walked ch g) = left g := rfl
      have books : (walked ch g).shards_remaining = left (walked ch g) := accounts.books
      have picks := picks_last_iff (placed.of_walk ch)
      show (List.foldl picked (walked ch g) _).game_status_code = _ ↔ _
      rw [Spares, ← walked_status_eq_iff]
      have one : g.shards_remaining = 1 ↔ left (walked ch g) = 1 := by
        rw [same, accounts.books]
        omega
      rw [one]
      by_cases last : 0 < left (walked ch g) ∧
          left ((List.finRange NUM_GOLD).foldl picked (walked ch g)) = 0
      · rw [collects.last books last.1 last.2]
        refine iff_of_false (fun won => ?_) fun both => both.1 (picks.mp last)
        have := accounts.won won.symm
        omega
      · rw [collects.before books last]
        exact (and_iff_right (mt picks.mpr last)).symm

/-! ### Runs -/

variable {wallRand goldRand : Nat → Nat} {labels : List GameLabel} {s s' : GameState}
  {label : GameLabel}

theorem sparesStep_iff (placed : Placed s.shared) (accounts : Accounts s.shared)
    (step : threads.Step s label s') :
    s'.shared.game_status_code = s.shared.game_status_code ↔ SparesStep s.shared label := by
  rcases step.cases with ⟨-, rfl, same⟩ | ⟨thread, key, rfl, -, body⟩
  · rw [same]
    exact iff_of_true rfl trivial
  · rw [placed.body] at body
    rw [← Option.some.inj body]
    exact spares_iff placed accounts thread key

/-- The key `q` is read while wall 2 is on its way to the adventurer: the game that was quit is lost. -/
theorem outcome_changes :
    ∃ g labels s labels' s', init (fun _ => 8) (fun _ => 0) = some g ∧
      Run threads.Step (Loops.start g) labels s ∧ s.shared.game_status_code = .quit ∧
      Run threads.Step s labels' s' ∧ (∀ thread, s'.phase thread = .returned) ∧
      report s'.shared.game_status_code = "You lose the game!!" := by
  let checks : List GameLabel := [.check .printer, .check .input] ++
    (List.finRange NUM_WALLS).map (.check <| .wall ·) ++
    (List.finRange NUM_GOLD).map (.check <| .gold ·)
  let labels : List GameLabel := press ['w', 'w'] ++
    [.check (.wall 2), .check .input, .body .input (some 'q')]
  have performed : ((init (fun _ => 8) (fun _ => 0)).bind fun g =>
      labels.foldlM threads.next (Loops.start g)).any fun s =>
        decide (s.shared.game_status_code = .quit) &&
        ((Label.body (Thread.wall 2) none :: checks).foldlM threads.next s).any fun s' =>
          decide (((∀ i, s'.phase (.wall i) = .returned) ∧ (∀ i, s'.phase (.gold i) = .returned) ∧
            s'.phase .printer = .returned ∧ s'.phase .input = .returned) ∧
            s'.shared.game_status_code = .lost) := by
    decide +kernel
  obtain ⟨s, found, last⟩ := (Option.any_eq_true _ _).mp performed
  obtain ⟨g, start, run⟩ := Option.bind_eq_some_iff.mp found
  obtain ⟨quit, last⟩ := Bool.and_eq_true_iff.mp last
  obtain ⟨s', run', last⟩ := (Option.any_eq_true _ _).mp last
  obtain ⟨⟨walls, golds, printer, input⟩, lost⟩ := of_decide_eq_true last
  refine ⟨g, labels, s, _, s', start, Loops.run_of_performed run, of_decide_eq_true quit,
    Loops.run_of_performed run', fun thread => ?_, ?_⟩
  · cases thread with
    | wall i => exact walls i
    | gold i => exact golds i
    | printer => exact printer
    | input => exact input
  · rw [lost]
    rfl

/-- **When the outcome is final.** From a reachable state, one in which the game is decided for
instance, the runs in which `game_status_code` stays as it is are those whose sections all spare it,
whatever the schedule and the keys; and threads that have all returned leave it as it is for `main`
to print. -/
theorem outcome_final (start : init wallRand goldRand = some g)
    (before : Run threads.Step (Loops.start g) labels s) :
    (∀ labels' s',
      Run (fun a label b => threads.Step a label b ∧
        b.shared.game_status_code = s.shared.game_status_code) s labels' s' ↔
      Run (fun a label b => threads.Step a label b ∧ SparesStep a.shared label) s labels' s') ∧
    ∀ labels' s', Run (fun a label b => threads.Step a label b ∧ SparesStep a.shared label)
      s labels' s' → s'.shared.game_status_code = s.shared.game_status_code ∧
        ((∀ thread, s'.phase thread = .returned) →
          ∀ later s'', Run threads.Step s' later s'' → s'' = s') := by
  let Same (a : GameState) : Prop := a.shared.game_status_code = s.shared.game_status_code
  have stays : ∀ labels' s',
      Run (fun a label b => threads.Step a label b ∧ Same b) s labels' s' ↔
      Run (fun a label b => threads.Step a label b ∧ SparesStep a.shared label) s labels' s' := by
    intro labels' s'
    apply Run.stays_iff (fun a => Placed a.shared ∧ Accounts a.shared) Same
      (fun a label b here step => accounts_of_run here.1 here.2 (.cons step (.nil b))) ?_
      (reachable_accounts start before) rfl
    intro a label b here same step
    show b.shared.game_status_code = s.shared.game_status_code ↔ _
    rw [← show a.shared.game_status_code = s.shared.game_status_code from same]
    exact sparesStep_iff here.1 here.2 step
  exact ⟨stays, fun labels' s' run => ⟨Run.good Same rfl ((stays labels' s').mpr run),
    fun returned later s'' => Loops.eq_of_returned returned⟩⟩

/-- The key `q`, and then a wall that is elsewhere. -/
theorem outcome_final_small :
    ∃ g labels s s', init (fun _ => 8) (fun _ => 0) = some g ∧
      Run threads.Step (Loops.start g) labels s ∧ s.shared.game_status_code = .quit ∧
      threads.Step s (.body (.wall 0) none) s' ∧ s'.shared.game_status_code = .quit := by
  let labels : List GameLabel := .check (.wall 0) :: press ['q']
  have performed : ((init (fun _ => 8) (fun _ => 0)).bind fun g =>
      labels.foldlM threads.next (Loops.start g)).any fun s =>
        decide (s.shared.game_status_code = .quit ∧
          ¬ (s.shared.walls 0).move.Hits s.shared.player_x s.shared.player_y) &&
        (threads.next s (.body (.wall 0) none)).isSome := by
    decide +kernel
  obtain ⟨s, found, last⟩ := (Option.any_eq_true _ _).mp performed
  obtain ⟨g, start, run⟩ := Option.bind_eq_some_iff.mp found
  obtain ⟨both, last⟩ := Bool.and_eq_true_iff.mp last
  obtain ⟨quit, away⟩ := of_decide_eq_true both
  obtain ⟨s', step⟩ := Option.isSome_iff_exists.mp last
  have run := Loops.run_of_performed run
  have spared := (outcome_final start run).2 [.body (.wall 0) none] s'
    (.cons ⟨step, fun hits => absurd hits away⟩ (.nil s'))
  exact ⟨g, labels, s, s', start, run, quit, step, spared.1.trans quit⟩

end Csc3150.Adventure
