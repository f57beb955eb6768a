/-
**The locks of `exit` and `wait`.**

* `no_deadlock` — a process that waits for a lock waits for one that can move on, or that waits for one
  that can;
* `wait_lock_returned` — who holds `wait_lock` gives it back after a bounded number of sections of its
  own, whatever the others do.
-/

import Csc3150.Lifecycle.Family

namespace Csc3150.Lifecycle

open Mmap (NPROC initproc)
open Transition

/-! ### Who holds a lock -/

/-- The places with `wait_lock`. -/
def Pc.holdsWait : Pc → Prop
  | .reparent .. | .wakeup .. | .mark _ | .marking _ | .marked | .scan .. | .sleep | .sleepLocked => True
  | .user | .kill .. | .fork _ | .adopt _ | .start _ | .exit _ | .leaving | .dead | .wait
  | .sleepReleased | .asleep => False

/-- The places with the lock of the process itself. -/
def Pc.holdsOwn : Pc → Prop
  | .marking _ | .marked | .leaving | .sleepLocked | .sleepReleased => True
  | .user | .kill .. | .fork _ | .adopt _ | .start _ | .exit _ | .reparent .. | .wakeup .. | .mark _
  | .dead | .wait | .scan .. | .sleep | .asleep => False

theorem Pc.Interruptible.without_locks {pc : Pc} (can : pc.Interruptible) :
    ¬ pc.holdsWait ∧ ¬ pc.holdsOwn := by
  cases pc with
  | user | kill | fork | adopt | start | exit | wait => exact ⟨id, id⟩
  | _ => exact can.elim

theorem Pc.resumed_holdsWait (pc : Pc) : pc.resumed.holdsWait ↔ pc.holdsWait := by
  cases pc <;> exact Iff.rfl

theorem Pc.resumed_holdsOwn (pc : Pc) : pc.resumed.holdsOwn ↔ pc.holdsOwn := by
  cases pc <;> exact Iff.rfl

/-- A lock is held by a process at a place that gives it back; `p->lock` from one section to the next
by `p` only. -/
structure Table.Held (s : Table) : Prop where
  wait : ∀ p, s.wait_lock = some p → (s.pc p).holdsWait
  own : ∀ q p, s.lock q = some p → p = q ∧ (s.pc q).holdsOwn

variable {s s' t : Table} {label : Label} {labels : List Label} {p q r : Slot} {pc : Pc}

/-- The process of a step moves on, and has the locks that its new place says. -/
theorem Table.Held.setPc (held : s.Held)
    (wait : ∀ q, t.wait_lock = some q → if q = p then pc.holdsWait else s.wait_lock = some q)
    (own : ∀ q r, t.lock q = some r → if q = p then r = p ∧ pc.holdsOwn else s.lock q = some r)
    (others : t.pc = s.pc) : (t.setPc p pc).Held where
  wait q holds := by
    have was := wait q holds
    by_cases same : q = p
    · simpa [same] using was
    · simpa [same, others] using held.wait q (by simpa [same] using was)
  own q r holds := by
    have was := own q r holds
    by_cases same : q = p
    · simpa [same] using was
    · simpa [same, others] using held.own q r (by simpa [same] using was)

/-- A step that neither takes nor gives back a lock. -/
theorem Table.Held.keep {pc₀ : Pc} (held : s.Held) (here : s.pc p = pc₀) (others : t.pc = s.pc)
    (wait : t.wait_lock = s.wait_lock) (own : t.lock = s.lock)
    (keepsWait : pc₀.holdsWait → pc.holdsWait) (keepsOwn : pc₀.holdsOwn → pc.holdsOwn) :
    (t.setPc p pc).Held := by
  refine held.setPc (fun q holds => ?_) (fun q r holds => ?_) others
  · rw [wait] at holds
    split
    · next same => exact keepsWait (here ▸ same ▸ held.wait q holds)
    · exact holds
  · rw [own] at holds
    split
    · next same =>
      subst same
      exact ⟨(held.own q r holds).1, keepsOwn (here ▸ (held.own q r holds).2)⟩
    · exact holds

/-- A slot that is not in use holds no lock. -/
theorem Table.Held.alloc (held : s.Held) (sound : s.Sound) (free : s.lock p = none)
    (unused : s.state p = .unused) : (s.alloc p).Held where
  wait q holds := by
    have was := held.wait q holds
    by_cases same : q = p
    · subst same
      have there := sound.at_place q
      rcases there.idle (fun up => up.alive.1 unused) with here | here | here | here | here <;>
        simp [here, Pc.holdsWait] at was
      rw [here] at there
      simp [Table.At, unused] at there
    · simpa [same] using was
  own q r holds := by
    have other : q ≠ p := by
      rintro rfl
      exact absurd (free.symm.trans holds) (Option.some_ne_none _).symm
    simpa [other] using held.own q r holds

theorem Table.step_held (sound : s.Sound) (held : s.Held) (step : Step s label s') : s'.Held := by
  have wait := held.wait
  have own := held.own
  cases step with
  | schedule p free ready =>
    exact held.keep rfl rfl rfl rfl (Pc.resumed_holdsWait _).mpr (Pc.resumed_holdsOwn _).mpr
  | yield | sleep | notify | setkilled => exact ⟨held.wait, held.own⟩
  | forkFails p i runs here free unused | forkMakes p i runs here free unused =>
    have taken := held.alloc sound free unused
    have other : p ≠ i := by
      rintro rfl
      simp [runs] at unused
    have place : (s.alloc i).pc p = .fork i := by simpa [other] using here
    exact taken.keep place rfl rfl rfl id id
  | wakeupEnd p chan i next runs here last =>
    cases next <;> exact held.keep here rfl rfl rfl id id
  | exitAcquire | mark | exitRelease | sched | waitAcquire | reap | copyoutFails | childless
  | waitKilled | sleepLock | sleepRelease | sleepSched =>
    have here := ‹s.pc _ = _›
    refine held.setPc (fun q holds => ?_) (fun q r holds => ?_) rfl <;>
      simp only [hold, release, holdWait, releaseWait, setState, setChan, freeproc] at holds <;>
      grind [Pc.holdsWait, Pc.holdsOwn]
  | _ =>
    have here := ‹s.pc _ = _›
    exact held.keep here rfl rfl rfl id id

theorem held_of_run (run : Run Step boot labels s) : s.Held := by
  have booted : boot.Held := ⟨fun _ => nofun, fun _ _ => nofun⟩
  have preserved : ∀ s label s', Table.Sound s ∧ s.Held → Step s label s' → s'.Sound ∧ s'.Held :=
    fun _ _ _ here step => ⟨Table.step_sound here.1 step, Table.step_held here.1 here.2 step⟩
  exact (run.invariant preserved ⟨boot_sound, booted⟩).2

/-! ### Waiting for a lock -/

/-- Who has the lock that the next section of a process takes. -/
def Table.obstacle (s : Table) (p : Slot) : Option Slot :=
  match s.pc p with
  | .kill _ i | .fork i => onSlot i s.lock none
  | .adopt _ | .exit _ | .wait => s.wait_lock
  | .start np => s.lock np
  | .wakeup _ i _ => onSlot i (fun q => if q = p then none else s.lock q) none
  | .mark _ | .sleep => s.lock p
  | .scan i havekids => onSlot i (fun q => if s.parent q = some p then s.lock q else none)
      (if havekids then s.lock p else none)
  | _ => none

/-- A process can take a step to another place. -/
def Table.Moves (s : Table) (p : Slot) : Prop := ∃ label s', Step s label s' ∧ s'.pc p ≠ s.pc p

theorem go_of_clear (clear : s.obstacle p = none) (inside : s.pc p ≠ .user)
    (awake : s.pc p ≠ .asleep) (alive : s.pc p ≠ .dead) :
    ∃ label s', s.go p true = some (label, s') ∧ s'.pc p ≠ s.pc p := by
  unfold Table.go onSlot
  unfold Table.obstacle onSlot at clear
  cases place : s.pc p <;> rw [place] at clear inside awake alive <;> dsimp only at clear ⊢
  case user | asleep | dead => contradiction
  case marking | marked | leaving | sleepLocked | sleepReleased => exact ⟨_, _, rfl, by simp⟩
  case adopt | start | exit | mark | wait | sleep =>
    rw [clear]
    exact ⟨_, _, rfl, by simp⟩
  case reparent status i =>
    split
    · refine ⟨_, _, rfl, ?_⟩
      split <;> simp
    · exact ⟨_, _, rfl, by simp⟩
  case kill | fork =>
    split
    · next low =>
      rw [dif_pos low] at clear
      rw [clear, unlocked, if_pos rfl]
      split <;> exact ⟨_, _, rfl, by simp⟩
    · exact ⟨_, _, rfl, by simp⟩
  case wakeup chan i next =>
    split
    · next low =>
      rw [dif_pos low] at clear
      split
      · exact ⟨_, _, rfl, by simp⟩
      · next other =>
        rw [if_neg other] at clear
        rw [clear]
        exact ⟨_, _, rfl, by simp⟩
    · cases next <;> exact ⟨_, _, rfl, by simp [After.pc]⟩
  case scan i havekids =>
    split
    · next low =>
      rw [dif_pos low] at clear
      split
      · next child =>
        rw [if_pos child] at clear
        rw [clear, unlocked, if_pos rfl]
        split <;> exact ⟨_, _, rfl, by simp⟩
      · exact ⟨_, _, rfl, by simp⟩
    · next last =>
      rw [dif_neg last] at clear
      split
      · next kids =>
        rw [if_pos kids] at clear
        rw [clear, unlocked, if_pos rfl]
        split <;> exact ⟨_, _, rfl, by simp⟩
      · exact ⟨_, _, rfl, by simp⟩

theorem moves_of_clear (sound : s.Sound) (executes : s.Executes p) (clear : s.obstacle p = none) :
    s.Moves p := by
  have there := sound.at_place p
  by_cases user : s.pc p = .user
  · have runs : s.state p = .running := by simpa [Table.Executes, user] using executes
    exact ⟨_, _, .fork p runs user, by simp [user]⟩
  · have awake : s.pc p ≠ .asleep := fun here => by
      rw [here] at there
      simp [Table.Executes, Table.At, here] at executes there
      simp [executes] at there
    have alive : s.pc p ≠ .dead := fun here => by
      rw [here] at there
      simp [Table.Executes, Table.At, here] at executes there
      simp [executes] at there
    obtain ⟨label, s', goes, moved⟩ := go_of_clear clear user awake alive
    exact ⟨label, s', step_of_go executes goes, moved⟩

theorem Table.At.executes (here : s.At p (s.pc p)) (holds : (s.pc p).holdsWait ∨ (s.pc p).holdsOwn) :
    s.Executes p := by
  by_contra idle
  have still : ¬ s.Up p := by
    rintro (runs | ready)
    · exact idle (Or.inl runs)
    · rcases here.ready ready with can | place
      · exact holds.elim can.without_locks.1 can.without_locks.2
      · simp [place, Pc.holdsWait, Pc.holdsOwn] at holds
  rcases here.idle still with place | place | place | place | place
  · simp [place, Pc.holdsWait, Pc.holdsOwn] at holds
  · simp [place, Pc.holdsWait, Pc.holdsOwn] at holds
  · exact idle (Or.inr (Or.inl place))
  · exact idle (Or.inr (Or.inr place))
  · simp [place, Pc.holdsWait, Pc.holdsOwn] at holds

theorem clear_of_own (own : (s.pc p).holdsOwn) : s.obstacle p = none := by
  unfold Table.obstacle
  cases place : s.pc p <;> simp_all [Pc.holdsOwn]

/-- A process waits for a lock of a process, or for `wait_lock` without having it. -/
theorem obstacle_held (obstacle : s.obstacle p = some q) :
    (∃ r, s.lock r = some q) ∨ s.wait_lock = some q ∧ ¬ (s.pc p).holdsWait := by
  unfold Table.obstacle onSlot at obstacle
  cases place : s.pc p <;> rw [place] at obstacle <;> dsimp only at obstacle
  case adopt | exit | wait => exact Or.inr ⟨obstacle, id⟩
  case start | mark | sleep => exact Or.inl ⟨_, obstacle⟩
  case kill | fork | wakeup | scan =>
    repeat' split at obstacle
    all_goals first | exact Or.inl ⟨_, obstacle⟩ | cases obstacle
  all_goals cases obstacle

/-- Who holds a lock of a process waits for nothing. -/
theorem moves_of_lock (sound : s.Sound) (held : s.Held) (lock : ∃ r, s.lock r = some q) :
    s.Executes q ∧ s.Moves q := by
  obtain ⟨r, lock⟩ := lock
  obtain ⟨rfl, own⟩ := held.own r q lock
  have executes := (sound.at_place q).executes (Or.inr own)
  exact ⟨executes, moves_of_clear sound executes (clear_of_own own)⟩

/-- **No deadlock.** A process that executes can move on, or it waits for the lock of one that executes
and can move on, or this one in turn waits for such a process. -/
theorem no_deadlock (run : Run Step boot labels s) (executes : s.Executes p) :
    s.Moves p ∨ ∃ q, s.obstacle p = some q ∧ s.Executes q ∧
      (s.Moves q ∨ ∃ r, s.obstacle q = some r ∧ s.Executes r ∧ s.Moves r) := by
  have sound := sound_of_run run
  have held := held_of_run run
  cases first : s.obstacle p with
  | none => exact Or.inl (moves_of_clear sound executes first)
  | some q =>
    refine Or.inr ⟨q, rfl, ?_⟩
    rcases obstacle_held first with lock | ⟨wait, -⟩
    · exact (moves_of_lock sound held lock).imp id Or.inl
    · have place := held.wait q wait
      have executes' := (sound.at_place q).executes (Or.inl place)
      refine ⟨executes', ?_⟩
      cases second : s.obstacle q with
      | none => exact Or.inl (moves_of_clear sound executes' second)
      | some r =>
        rcases obstacle_held second with lock | ⟨-, without⟩
        · exact Or.inr ⟨r, rfl, moves_of_lock sound held lock⟩
        · exact absurd place without

/-- A child that exits waits for `wait_lock`, which `init` has taken in `wait`. -/
def exitWaits : List Command :=
  [.schedule initproc, .fork initproc] ++ List.replicate 4 (.go initproc true) ++
    [.schedule firstSlot, .exit firstSlot 7, .wait initproc, .go initproc true]

theorem no_deadlock_of_waiting : ∃ labels s, Run Step boot labels s ∧ s.Executes firstSlot ∧
    s.obstacle firstSlot = some initproc ∧ (s.Moves firstSlot ∨ ∃ q, s.obstacle firstSlot = some q ∧
      s.Executes q ∧ (s.Moves q ∨ ∃ r, s.obstacle q = some r ∧ s.Executes r ∧ s.Moves r)) := by
  have performed : (exitWaits.foldlM Table.perform boot).any
      (fun s => decide (s.Executes firstSlot ∧ s.obstacle firstSlot = some initproc)) = true := by
    decide +kernel
  obtain ⟨labels, s, run, -, checked⟩ := exists_run performed
  obtain ⟨executes, waits⟩ := of_decide_eq_true checked
  exact ⟨labels, s, run, executes, waits, no_deadlock run executes⟩

/-! ### How long `wait_lock` is held -/

/-- A bound for the sections that a process takes until it gives `wait_lock` back. -/
def Pc.rest : Pc → Nat
  | .reparent _ i => (NPROC - i) * (NPROC + 2) + NPROC + 5
  | .wakeup _ j (.reparent _ i) => NPROC - j + 1 + ((NPROC - i) * (NPROC + 2) + NPROC + 5)
  | .wakeup _ j (.mark _) => NPROC - j + 4
  | .mark _ => 3
  | .marking _ => 2
  | .marked => 1
  | .scan i _ => NPROC - i + 3
  | .sleep => 2
  | .sleepLocked => 1
  | .user | .kill .. | .fork _ | .adopt _ | .start _ | .exit _ | .leaving | .dead | .wait
  | .sleepReleased | .asleep => 0

/-- The step is a section of a process itself. -/
def Label.own (p : Slot) : Label → Bool
  | .schedules _ | .notifies _ => false
  | .silent q | .kills q _ _ | .allocates q _ _ | .exits q _ _ | .reaps q _ _ _ | .faults q
  | .forsakes q => q = p

/-- A section of a process that keeps `wait_lock`. -/
theorem rest_setPc {pc₀ : Pc} (held : s.Held) (holds : s.wait_lock = some p) (here : s.pc q = pc₀)
    (others : t.pc = s.pc) (wait : t.wait_lock = s.wait_lock)
    (own : label.own p = decide (q = p)) (less : pc₀.holdsWait → pc.rest + 1 ≤ pc₀.rest) :
    (t.setPc q pc).wait_lock = some p ∧
      ((t.setPc q pc).pc p).rest + (label.own p).toNat ≤ (s.pc p).rest := by
  refine ⟨wait.trans holds, ?_⟩
  rw [own]
  by_cases same : q = p
  · subst same
    simpa [here] using less (here ▸ held.wait q holds)
  · simp [same, Ne.symm same, others]

theorem step_rest (sound : s.Sound) (held : s.Held) (step : Step s label s')
    (holds : s.wait_lock = some p) : s'.wait_lock = none ∨ s'.wait_lock = some p ∧
      (s'.pc p).rest + (label.own p).toNat ≤ (s.pc p).rest := by
  have place := held.wait p holds
  have size : NPROC = 64 := rfl
  cases step with
  | exitRelease | reap | copyoutFails | childless | waitKilled | sleepRelease => exact Or.inl rfl
  | exitAcquire q status runs here free | waitAcquire q runs here free =>
    exact absurd (free.symm.trans holds) (Option.some_ne_none _).symm
  | schedule q free ready =>
    refine Or.inr ⟨holds, ?_⟩
    have other : p ≠ q := by
      rintro rfl
      rcases (sound.at_place p).ready ready with can | here
      · exact can.without_locks.1 place
      · simp [here, Pc.holdsWait] at place
    simp [Label.own, other]
  | notify => exact Or.inr ⟨holds, le_rfl⟩
  | yield q runs here =>
    refine Or.inr ⟨holds, ?_⟩
    have other : q ≠ p := by
      rintro rfl
      exact here.without_locks.1 place
    simp [Label.own, other]
  | sleep q n runs here | setkilled q runs here =>
    refine Or.inr ⟨holds, ?_⟩
    have other : q ≠ p := by
      rintro rfl
      simp [here, Pc.holdsWait] at place
    simp [Label.own, other]
  | forkFails q i runs here free unused | forkMakes q i runs here free unused =>
    refine Or.inr ⟨holds, ?_⟩
    have other : p ≠ q := by
      rintro rfl
      simp [here, Pc.holdsWait] at place
    have used : p ≠ i := by
      rintro rfl
      have there := sound.at_place p
      rcases there.idle (fun up => up.alive.1 unused) with here | here | here | here | here <;>
        simp [here, Pc.holdsWait] at place
      rw [here] at there
      simp [Table.At, unused] at there
    simp [Label.own, other, Ne.symm other, used]
  | wakeupEnd q chan i next runs here last =>
    refine Or.inr (rest_setPc held holds here rfl rfl rfl fun _ => ?_)
    cases next <;> simp only [After.pc, Pc.rest] <;> omega
  | reparentNext q status i runs here | reparentChild q status i runs here
  | scanNext q i havekids runs here
  | scanChild q i havekids runs here =>
    refine Or.inr (rest_setPc held holds here rfl rfl rfl fun _ => ?_)
    have low := i.isLt
    simp only [Pc.rest, size]
    omega
  | wakeupSelf q chan next runs here =>
    refine Or.inr (rest_setPc held holds here rfl rfl rfl fun _ => ?_)
    have low := q.isLt
    cases next <;> simp only [Pc.rest, size] <;> omega
  | wakeupNext q chan i next runs here =>
    refine Or.inr (rest_setPc held holds here rfl rfl rfl fun _ => ?_)
    have low := i.isLt
    cases next <;> simp only [Pc.rest, size] <;> omega
  | reparentEnd q status i runs here last | waitSleep q i runs here last =>
    refine Or.inr (rest_setPc held holds here rfl rfl rfl fun _ => ?_)
    simp only [Pc.rest]
    omega
  | mark | zombie | sleepLock =>
    have here := ‹s.pc _ = _›
    exact Or.inr (rest_setPc held holds here rfl rfl rfl fun _ => le_rfl)
  | _ =>
    have here := ‹s.pc _ = _›
    exact Or.inr (rest_setPc held holds here rfl rfl rfl False.elim)

theorem wait_lock_run (sound : s.Sound) (held : s.Held) (run : Run Step s labels s')
    (holds : s.wait_lock = some p) (many : (s.pc p).rest < labels.countP (Label.own p)) :
    ∃ before after middle, labels = before ++ after ∧ Run Step s before middle ∧
      middle.wait_lock = none ∧ Run Step middle after s' := by
  induction run with
  | nil s => exact absurd many (Nat.not_lt_zero _)
  | @cons s middle s' label rest first later ih =>
    rcases step_rest sound held first holds with free | ⟨holds', less⟩
    · exact ⟨[label], rest, middle, rfl, .cons first (.nil _), free, later⟩
    · have fewer : (middle.pc p).rest < rest.countP (Label.own p) := by
        rw [List.countP_cons] at many
        cases own : label.own p <;> simp [own] at many less <;> omega
      obtain ⟨before, after, last, rfl, run, free, run'⟩ :=
        ih (Table.step_sound sound first) (Table.step_held sound held first) holds' fewer
      exact ⟨label :: before, after, last, rfl, .cons first run, free, run'⟩

theorem Pc.rest_le (pc : Pc) : pc.rest ≤ NPROC * (NPROC + 2) + 2 * NPROC + 6 := by
  have size : NPROC = 64 := rfl
  cases pc with
  | wakeup chan i next => cases next <;> simp only [rest, size] <;> omega
  | _ =>
    simp only [rest, size]
    omega

/-- **`wait_lock` is given back.** A process that holds it does so after at most
`NPROC * (NPROC + 2) + 2 * NPROC + 6` more sections of its own, in every run of all processes. -/
theorem wait_lock_returned {labels₀ : List Label} (reached : Run Step boot labels₀ s)
    (run : Run Step s labels s') (holds : s.wait_lock = some p)
    (many : NPROC * (NPROC + 2) + 2 * NPROC + 6 < labels.countP (Label.own p)) :
    ∃ before after middle, labels = before ++ after ∧ Run Step s before middle ∧
      middle.wait_lock = none ∧ Run Step middle after s' :=
  wait_lock_run (sound_of_run reached) (held_of_run reached) run holds
    (Nat.lt_of_le_of_lt (Pc.rest_le _) many)

/-- A process may go on for as long as it likes. -/
theorem setkilled_run (runs : s.state p = .running) (here : s.pc p = .user) (free : s.lock p = none)
    (n : Nat) : ∃ s', Run Step s (List.replicate n (.kills p p (s.pid p))) s' := by
  induction n generalizing s with
  | zero => exact ⟨s, .nil s⟩
  | succ n ih =>
    obtain ⟨s', run⟩ := ih (s := s.setKilled p) runs here free
    exact ⟨s', .cons (.setkilled p runs here free) run⟩

theorem step_reaps {child : Slot} {pid status : Int32} (step : Step s (.reaps p child pid status) s') :
    (∃ havekids, s.pc p = .scan child havekids) ∧ s.state p = .running ∧ s.state child = .zombie ∧
      s' = (s.freeproc child).releaseWait.setPc p .user := by
  cases step with
  | reap _ _ havekids runs here _ _ zombie => exact ⟨⟨havekids, here⟩, runs, zombie, rfl⟩

theorem wait_lock_returned_of_init : ∃ labels₀ s labels s', Run Step boot labels₀ s ∧
    s.wait_lock = some initproc ∧ Run Step s labels s' ∧
      ∃ before after middle, labels = before ++ after ∧ Run Step s before middle ∧
        middle.wait_lock = none ∧ Run Step middle after s' := by
  obtain ⟨labels₀, s, reached, -, -, executes, s', goes⟩ := waits_for_child
  have step := step_of_go executes goes
  obtain ⟨⟨havekids, here⟩, runs, zombie, rfl⟩ := step_reaps step
  have there := (sound_of_run reached).at_place initproc
  rw [here] at there
  have lock : s.lock initproc = none := by
    by_contra locked
    obtain ⟨q, lock⟩ := Option.ne_none_iff_exists'.mp locked
    simpa [here, Pc.holdsOwn] using ((held_of_run reached).own _ _ lock).2
  have other : initproc ≠ firstSlot := by decide
  obtain ⟨last, later⟩ := setkilled_run (p := initproc)
    (s := (s.freeproc firstSlot).releaseWait.setPc initproc .user) (by simpa [other] using runs)
    (by simp) lock 5000
  have run := Run.cons step later
  refine ⟨labels₀, s, _, last, reached, there.2.1, run,
    wait_lock_returned reached run there.2.1 ?_⟩
  have killing : ∀ pid, (Label.kills initproc initproc pid).own initproc = true := fun _ => rfl
  rw [List.countP_cons, List.countP_replicate, if_pos (killing _)]
  exact Nat.lt_add_right _ (by decide)

end Csc3150.Lifecycle
