/-
**Parents, children and wakeups.**

* `Sound` — the invariant, and `step_sound`;
* `step_turn`, `step_inherits` — what a step does to the state and to the parent of a slot;
* `children_have_living_parents` — every process but `init` has a parent, which can still wait for it;
* `no_lost_wakeup` — while `wait_lock` is free no process sleeps in `wait` beside a child that has
  exited.
-/

import Csc3150.Lifecycle.Outline

namespace Csc3150.Lifecycle

open Mmap (NPROC initproc)
open Transition

namespace Table

variable {s s' : Table} {p q i : Slot} {pc : Pc} {state : ProcState}

/-- The states of a process that can have children. -/
def Alive (state : ProcState) : Prop := state = .sleeping ∨ state = .runnable ∨ state = .running

/-- The parent of a process that has exited does not doze, or is about to be woken. -/
def Roused (s : Table) : Prop :=
  ∀ q p, s.parent q = some p → s.state q = .zombie → s.Dozing p →
    ∃ r chan i status j, s.pc r = .wakeup chan i (.reparent status j) ∧ p = initproc ∧ i ≤ p.val

/-- The invariant. -/
structure Sound (s : Table) : Prop where
  at_place : ∀ p, s.At p (s.pc p)
  unique : ∀ p q np, (s.pc p).child = some np → (s.pc q).child = some np → p = q
  orphan : ∀ q, s.state q = .unused → s.parent q = none
  parented : ∀ q, q ≠ initproc → Alive (s.state q) ∨ s.state q = .zombie → s.parent q ≠ none
  alive : ∀ q p, s.parent q = some p → Alive (s.state p)
  init : Alive (s.state initproc)
  roused : s.Roused

theorem step_at {label : Label} (sound : s.Sound) (step : Step s label s') :
    ∀ q, s'.At q (s'.pc q) := by
  have all := sound.at_place
  have busy : ∀ {p np}, (s.pc p).child = some np → s.state np = .used := (all _).used
  cases step with
  | schedule p free ready =>
    refine at_of_own (p := p) all ?_ fun q other => ?_
    · rcases (all p).ready ready with can | place
      · have own : (((s.setState p .running).setChan p none).setPc p (s.pc p)).At p (s.pc p) :=
          (all p).interrupted can (Or.inl rfl) rfl rfl
        simpa [can.resumed_eq] using own
      · simp [At, Up, Pc.resumed, place]
    · refine (tolerates_setState other ?_ ?_ ?_).trans
        ((tolerates_setChan other).trans (tolerates_setPc other fun _ late => ?_))
      · simp [ready]
      · simp
      · simp
      · rcases (all p).ready ready with can | place
        · rw [can.resumed_eq] at late
          exact absurd late (not_or.mpr can.awake)
        · simp [Pc.resumed, place] at late
  | yield p runs here free =>
    refine at_of_own (p := p) all ((all p).interrupted here (Or.inr rfl) rfl rfl) fun q other =>
      tolerates_setState other ?_ ?_ ?_
    · simp [runs]
    · simp
    · simp
  | sleep p n runs here free =>
    refine at_of_own (p := p) all (by simp [At, here]) fun q other =>
      (tolerates_setState other ?_ ?_ ?_).trans (tolerates_setChan other)
    · simp [runs]
    · simp
    · simp [here]
  | notify p n free => exact fun q => (all q).stable tolerates_wakeup
  | setkilled p runs here free => exact fun q => (all q).stable tolerates_flags
  | kill p pid runs here => exact at_setPc all (Or.inl runs) (fun _ _ => .refl) (by simp)
  | killNext p pid i runs here free other => exact at_setPc all (Or.inl runs) (fun _ _ => .refl) (by simp)
  | killFound p pid i runs here free found =>
    refine at_setPc all ?_ (fun _ _ => tolerates_kill) (by simp)
    simp [At, runs]
    grind
  | killNone p pid i runs here last =>
    exact at_setPc all (by simp [At, runs]) (fun _ _ => .refl) (by simp)
  | fork p runs here => exact at_setPc all (Or.inl runs) (fun _ _ => .refl) (by simp)
  | forkNext p i runs here free busy => exact at_setPc all (Or.inl runs) (fun _ _ => .refl) (by simp)
  | forkFull p i runs here last =>
    exact at_setPc all (by simp [At, runs]) (fun _ _ => .refl) (by simp)
  | forkFails p i runs here free unused =>
    have different : p ≠ i := by grind
    have fresh : ∀ q, q ≠ i → s.Tolerates q ((s.alloc i).freeproc i) := by
      intro q other
      refine (tolerates_alloc other).trans
        (tolerates_freeproc other ?_ fun _ => sound.orphan i unused)
      rintro np is rfl
      have used : s.state np = .used := busy (p := q) (by simpa [other] using is)
      simp [used] at unused
    refine at_setPc (s := (s.alloc i).freeproc i) ?_ (by simp [At, runs, different])
      (fun _ _ => .refl) (by simp)
    intro q
    by_cases same : q = i
    · simp [At, same]
    · exact (all q).stable (fresh q same)
  | forkMakes p i runs here free unused =>
    have different : p ≠ i := by grind
    refine at_setPc (s := s.alloc i) ?_ (by simp [At, Up, runs, different]) (fun _ _ => .refl) (by simp)
    intro q
    by_cases same : q = i
    · simp [At, same]
    · exact (all q).stable (tolerates_alloc same)
  | adopt p np runs here free =>
    have mine := all p
    rw [here] at mine
    refine at_setPc all ⟨mine.1, mine.2, by simp⟩ (fun q _ => tolerates_setParent ?_) (by simp)
    simp [free]
  | start p np runs here free =>
    have child : (s.pc p).child = some np := by rw [here]; rfl
    have used := busy child
    have different : p ≠ np := by grind
    refine at_moved (by simp [At, runs, different]) (fun q other => ?_) (by simp)
    by_cases same : q = np
    · have mine := all np
      subst same
      rcases mine.idle (fun up => up.alive.2.1 used) with place | place | place | place | place <;>
        simp [place, At, used] at mine ⊢
    · refine (all q).stable (tolerates_setState same ?_ ?_ ?_)
      · exact fun is => absurd (sound.unique q p np is child) other
      · simp
      · simp
  | exit p status runs here mortal =>
    exact at_setPc all ⟨Or.inl runs, mortal⟩ (fun _ _ => .refl) (by simp)
  | exitAcquire p status runs here free =>
    have mine := all p
    rw [here] at mine
    refine at_setPc all ⟨⟨runs, mine.2, rfl⟩, fun k low => absurd low (Nat.not_lt_zero _)⟩
      (fun q _ => tolerates_holdWait free) (by simp)
  | reparentNext p status i runs here other =>
    have mine := all p
    rw [here] at mine
    exact at_setPc all ⟨mine.1, mine.2.next other⟩ (fun _ _ => .refl) (by simp)
  | reparentChild p status i runs here child =>
    have mine := all p
    rw [here] at mine
    refine at_setPc all ⟨mine.1, ?_, rfl⟩ (fun q other => tolerates_setParent ?_) (by simp)
    · have none := mine.2
      have mortal := mine.1.2.1
      simp only [Childless, setParent, setPc] at none ⊢
      grind
    · simpa [mine.1.2.2] using other.symm
  | reparentEnd p status i runs here last =>
    have mine := all p
    rw [here] at mine
    refine at_setPc all ⟨mine.1, mine.2.mono last, rfl,
      fun q _ low => absurd low (Nat.not_lt_zero _)⟩
      (fun _ _ => .refl) (by simp)
  | wakeupSelf p chan next runs here =>
    have mine := all p
    rw [here] at mine
    cases next with
    | reparent status j => exact at_setPc all mine (fun _ _ => .refl) (by simp)
    | mark status =>
      obtain ⟨exiting, childless, named, told⟩ := mine
      refine at_setPc all ⟨exiting, childless, named, fun q parent low => ?_⟩ (fun _ _ => .refl) (by simp)
      have other : q.val ≠ p.val := fun same => childless p p.isLt (Fin.ext same ▸ parent)
      exact told.setPc (by simp) (by simp) q parent (by omega)
  | wakeupNext p chan i next runs here other free =>
    have mine := all p
    rw [here] at mine
    cases next with
    | reparent status j =>
      refine at_setPc all ⟨?_, mine.2.1, mine.2.2⟩ (fun _ _ => tolerates_wakeup) (by simp)
      have exiting := mine.1
      simp [Exiting] at *
      grind
    | mark status =>
      obtain ⟨exiting, childless, named, told⟩ := mine
      have him := all i
      refine at_setPc all ⟨?_, childless, named, fun q parent low => ?_⟩ (fun _ _ => tolerates_wakeup)
        (by simp)
      · simp [Exiting] at *
        grind
      · intro dozes
        have dozes := dozes.of_setPc (by simp) (by simp)
        rcases Nat.lt_succ_iff_lt_or_eq.mp low with earlier | same
        · exact told q parent earlier ((tolerates_wakeup (q := p)).awake exiting.2.2 q dozes)
        · obtain rfl : q = i := Fin.ext same
          have parent : s.parent p = some q := parent
          rw [named, parent] at dozes
          exact not_dozing_wakeup (all q) free dozes
  | wakeupEnd p chan i next runs here last =>
    have mine := all p
    rw [here] at mine
    cases next with
    | reparent status j => exact at_setPc all ⟨mine.1, mine.2.1⟩ (fun _ _ => .refl) (by simp [After.pc])
    | mark status =>
      obtain ⟨exiting, childless, named, told⟩ := mine
      exact at_setPc all ⟨exiting, childless, (told.mono last).setPc (by simp [After.pc]) (by simp [After.pc])⟩
        (fun _ _ => .refl) (by simp [After.pc])
  | mark p status runs here free =>
    have mine := all p
    rw [here] at mine
    obtain ⟨exiting, childless, told⟩ := mine
    refine at_setPc all ⟨exiting, childless, told.setPc (by simp) (by simp), by simp⟩
      (fun _ other => tolerates_hold other) (by simp)
  | zombie p status runs here =>
    have mine := all p
    rw [here] at mine
    obtain ⟨⟨-, -, holds⟩, childless, told, held⟩ := mine
    refine at_setPc all ⟨by simp, holds, held⟩ (fun q other => ?_) (by simp)
    refine tolerates_flags.trans (tolerates_setState other ?_ ?_ ?_)
    · simp [runs]
    · simpa [holds] using fun same : p = q => other same.symm
    · simp
  | exitRelease p here =>
    have mine := all p
    rw [here] at mine
    exact at_setPc all ⟨mine.1, mine.2.2⟩ (fun q other => tolerates_releaseWait other mine.2.1)
      (by simp)
  | sched p here =>
    have mine := all p
    rw [here] at mine
    exact at_setPc all (Or.inl mine.1) (fun q other => tolerates_release other) (by simp)
  | wait p runs here => exact at_setPc all (Or.inl runs) (fun _ _ => .refl) (by simp)
  | waitAcquire p runs here free =>
    refine at_setPc all ⟨runs, rfl, fun k low => absurd low (Nat.not_lt_zero _), ?_⟩
      (fun _ _ => tolerates_holdWait free) (by simp)
    simp
  | scanNext p i havekids runs here other =>
    have mine := all p
    rw [here] at mine
    obtain ⟨-, holds, scanned, kids⟩ := mine
    refine at_setPc all ⟨runs, holds, scanned.next fun parent => absurd parent other, ?_⟩
      (fun _ _ => .refl) (by simp)
    exact kids.trans (exists_lt_succ other).symm
  | scanChild p i havekids runs here child free alive =>
    have mine := all p
    rw [here] at mine
    obtain ⟨-, holds, scanned, -⟩ := mine
    exact at_setPc all ⟨runs, holds, scanned.next fun _ => alive,
      iff_of_true rfl ⟨i, Nat.lt_succ_self _, child⟩⟩ (fun _ _ => .refl) (by simp)
  | reap p i havekids runs here child free zombie =>
    have mine := all p
    rw [here] at mine
    have different : p ≠ i := by grind
    refine at_moved (by simp [At, runs, different]) (fun q other => ?_) (by simp)
    by_cases same : q = i
    · have mine := all i
      subst same
      rcases mine.idle (fun up => up.alive.2.2 zombie) with place | place | place | place | place <;>
        simp [place, At, zombie, free] at mine ⊢
    · refine (all q).stable ((tolerates_freeproc same ?_ ?_).trans (tolerates_releaseWait other mine.2.1))
      · rintro np is rfl
        have := busy is
        simp_all
      · intro holds
        rw [mine.2.1] at holds
        exact absurd (Option.some.inj holds).symm other
  | copyoutFails p _ _ runs here | childless p _ runs here | waitKilled p _ runs here =>
    have mine := all p
    rw [here] at mine
    exact at_setPc all (by simp [At, runs]) (fun q other => tolerates_releaseWait other mine.2.1)
      (by simp)
  | waitSleep p i runs here last free spared =>
    have mine := all p
    rw [here] at mine
    exact at_setPc all ⟨runs, mine.2.1, mine.2.2.1.mono last⟩ (fun _ _ => .refl) (by simp)
  | sleepLock p runs here free =>
    have mine := all p
    rw [here] at mine
    exact at_setPc all ⟨runs, mine.2.1, mine.2.2, by simp⟩ (fun q other => tolerates_hold other) (by simp)
  | sleepRelease p runs here =>
    have mine := all p
    rw [here] at mine
    refine at_of_own (p := p) all ?_ fun q other => ?_
    · simpa [At, runs] using mine.2.2.2
    · have moved : s.Tolerates q (s.setPc p .sleepReleased) :=
        tolerates_setPc other fun holds _ => by
          rw [mine.2.1] at holds
          exact absurd (Option.some.inj holds).symm other
      exact moved.trans (tolerates_releaseWait other mine.2.1)
  | sleepSched p runs here =>
    refine at_setPc all ?_ (fun q other => ?_) ?_
    · simp [At]
    · refine (tolerates_setState other ?_ ?_ ?_).trans
        ((tolerates_setChan other).trans (tolerates_release other))
      · simp [runs]
      · simp
      · simp [here]
    · exact fun _ => Or.inl (Or.inl here)

theorem child_setPc {np : Slot} (none : pc.child = none)
    (is : ((s.setPc p pc).pc q).child = some np) : (s.pc q).child = some np := by
  simp only [setPc] at is
  split at is
  · rw [none] at is
    cases is
  · exact is

/-- Only `allocproc` gives a process a child under way. -/
theorem step_child {label : Label} (step : Step s label s') {np : Slot}
    (is : (s'.pc q).child = some np) : (s.pc q).child = some np ∨
      s.state np = .unused ∧ s.pc q ≠ .user ∧ ∃ pid, label = .allocates q np pid := by
  cases step with
  | schedule p free ready =>
    simp only [setPc, setChan, setState] at is
    split at is
    · next same =>
      rw [same]
      cases place : s.pc p <;> rw [place] at is <;> exact Or.inl is
    · exact Or.inl is
  | yield | sleep | notify | setkilled => exact Or.inl is
  | wakeupEnd p chan i next runs here last => cases next <;> exact Or.inl (child_setPc rfl is)
  | forkFails p i runs here free unused =>
    have is := child_setPc rfl is
    simp only [freeproc, alloc, setState] at is
    split at is
    · cases is
    · exact Or.inl is
  | forkMakes p i runs here free unused =>
    simp only [alloc, setState, setPc] at is
    split at is
    · next same =>
      cases is
      exact Or.inr ⟨unused, by simp [same, here], _, by rw [same]⟩
    · split at is
      · cases is
      · exact Or.inl is
  | adopt p np' runs here free =>
    simp only [setParent, setPc] at is
    split at is
    · next same =>
      refine Or.inl ?_
      rw [same, here]
      exact is
    · exact Or.inl is
  | _ => exact Or.inl (child_setPc rfl is)

/-- What a step does to the state of a slot. -/
inductive Turn (s : Table) (label : Label) (s' : Table) (q : Slot) : Prop
  | stays (same : s'.state q = s.state q)
  | moves (before : Alive (s.state q)) (after : Alive (s'.state q))
  | allocated (p : Slot) (pid : Int32) (is_fork : label = .allocates p q pid)
      (before : s.state q = .unused) (after : s'.state q = .used)
  | started (p : Slot) (place : s.pc p = .start q) (before : s.state q = .used)
      (after : s'.state q = .runnable)
  | exited (status : Int32) (is_exit : label = .exits q (s.pid q) status)
      (place : s.pc q = .marking status) (after : s'.state q = .zombie)
  | reaped (p : Slot) (is_wait : label = .reaps p q (s.pid q) (s.xstate q))
      (before : s.state q = .zombie) (after : s'.state q = .unused) (orphan : s'.parent q = none)

/-- What a step does to the parent of a slot. -/
inductive Inherits (s : Table) (s' : Table) (q : Slot) : Prop
  | stays (same : s'.parent q = s.parent q)
  | adopted (p : Slot) (place : s.pc p = .adopt q) (parent : s'.parent q = some p)
      (next : s'.pc p = .start q)
  | inherited (p : Slot) (status : Int32) (place : s.pc p = .reparent status q)
      (before : s.parent q = some p) (parent : s'.parent q = some initproc)
      (next : ∃ i, s'.pc p = .wakeup (some (.proc initproc)) 0 (.reparent status i))
  | cleared (unused : s'.state q = .unused) (parent : s'.parent q = none)

theorem turn_setState {label : Label} {t : Table} (states : t.state = (s.setState p state).state)
    (before : Alive (s.state p)) (after : Alive state) : s.Turn label t q := by
  by_cases same : q = p
  · subst same
    exact .moves before (by simpa [states] using after)
  · exact .stays (by simp [states, same])

theorem turn_wakeup {label : Label} {t : Table} {cond : Prop} [Decidable cond]
    (states : t.state = (s.setState i (if s.state i = .sleeping ∧ cond then .runnable
      else s.state i)).state) : s.Turn label t q := by
  by_cases roused : q = i ∧ s.state i = .sleeping ∧ cond
  · obtain ⟨rfl, asleep, holds⟩ := roused
    exact .moves (Or.inl asleep) (by simp [states, asleep, holds, Alive])
  · refine .stays ?_
    simp only [states, setState]
    split
    · next same => rw [same, if_neg fun both => roused ⟨same, both⟩]
    · rfl

theorem step_turn {label : Label} (sound : s.Sound) (step : Step s label s') (q : Slot) :
    s.Turn label s' q := by
  cases step with
  | schedule p free ready =>
    exact turn_setState rfl (Or.inr (Or.inl ready)) (Or.inr (Or.inr rfl))
  | yield p runs here free => exact turn_setState rfl (Or.inr (Or.inr runs)) (Or.inr (Or.inl rfl))
  | sleep p n runs here free => exact turn_setState rfl (Or.inr (Or.inr runs)) (Or.inl rfl)
  | notify p n free => exact turn_wakeup rfl
  | killFound p pid i runs here free found =>
    have states : ((s.kill i).setPc p .user).state =
        (s.setState i (if s.state i = .sleeping ∧ True then .runnable else s.state i)).state := by simp
    exact turn_wakeup states
  | wakeupNext p chan i next runs here other free => exact turn_wakeup rfl
  | sleepSched p runs here => exact turn_setState rfl (Or.inr (Or.inr runs)) (Or.inl rfl)
  | forkFails p i runs here free unused =>
    refine .stays ?_
    simp only [alloc, freeproc, setState, setPc]
    split
    · next same => rw [same, unused]
    · rfl
  | forkMakes p i runs here free unused =>
    by_cases same : q = i
    · subst same
      exact .allocated p _ rfl unused (by simp)
    · exact .stays (by simp [same])
  | start p np runs here free =>
    by_cases same : q = np
    · subst same
      exact .started p here ((sound.at_place p).used (by rw [here]; rfl)) (by simp)
    · exact .stays (by simp [same])
  | zombie p status runs here =>
    by_cases same : q = p
    · subst same
      exact .exited status rfl here (by simp)
    · exact .stays (by simp [same])
  | reap p i havekids runs here child free zombie =>
    by_cases same : q = i
    · subst same
      exact .reaped p rfl zombie (by simp) (by simp)
    · exact .stays (by simp [same])
  | _ => exact .stays rfl

theorem step_inherits {label : Label} (step : Step s label s') (q : Slot) : s.Inherits s' q := by
  cases step with
  | adopt p np runs here free =>
    by_cases same : q = np
    · subst same
      exact .adopted p here (by simp) (by simp)
    · exact .stays (by simp [same])
  | reparentChild p status i runs here child =>
    by_cases same : q = i
    · subst same
      exact .inherited p status here child (by simp) ⟨q + 1, by simp⟩
    · exact .stays (by simp [same])
  | forkFails p i runs here free unused =>
    by_cases same : q = i
    · exact .cleared (by simp [same]) (by simp [same])
    · exact .stays (by simp [same])
  | reap p i havekids runs here child free zombie =>
    by_cases same : q = i
    · exact .cleared (by simp [same]) (by simp [same])
    · exact .stays (by simp [same])
  | _ => exact .stays rfl

theorem step_orphan {label : Label} (sound : s.Sound) (step : Step s label s')
    (unused : s'.state q = .unused) : s'.parent q = none := by
  have before : s.state q = .unused ∨ s'.parent q = none := by
    cases step_turn sound step q with
    | stays same => exact Or.inl (same ▸ unused)
    | reaped p is_wait before after orphan => exact Or.inr orphan
    | moves before after => simp [Alive, unused] at after
    | allocated p pid is_fork before after => simp [unused] at after
    | started p place before after => simp [unused] at after
    | exited status is_exit place after => simp [unused] at after
  rcases before with before | orphan
  · cases step_inherits step q with
    | stays same => rw [same, sound.orphan q before]
    | adopted p place parent =>
      have used : s.state q = .used := (sound.at_place p).used (by rw [place]; rfl)
      simp [before] at used
    | inherited p status place parent _ _ => simp [sound.orphan q before] at parent
    | cleared _ parent => exact parent
  · exact orphan

/-- A process that is alive stays so, unless it exits. -/
theorem step_alive_of {label : Label} (sound : s.Sound) (step : Step s label s')
    (alive : Alive (s.state p)) (stays : ∀ status, s.pc p ≠ .marking status) :
    Alive (s'.state p) := by
  cases step_turn sound step p with
  | stays same => rwa [same]
  | moves before after => exact after
  | allocated p' pid is_fork before after => simp [Alive, before] at alive
  | started p' place before after => exact after ▸ Or.inr (Or.inl rfl)
  | exited status is_exit place after => exact absurd place (stays status)
  | reaped p' is_wait before after orphan => simp [Alive, before] at alive

theorem step_init {label : Label} (sound : s.Sound) (step : Step s label s') :
    Alive (s'.state initproc) := by
  refine step_alive_of sound step sound.init fun status place => ?_
  have here := sound.at_place initproc
  rw [place] at here
  exact here.1.2.1 rfl

theorem step_alive {label : Label} (sound : s.Sound) (step : Step s label s')
    (parent : s'.parent q = some p) : Alive (s'.state p) := by
  cases step_inherits step q with
  | stays same =>
    rw [same] at parent
    refine step_alive_of sound step (sound.alive q p parent) fun status place => ?_
    have here := sound.at_place p
    rw [place] at here
    exact here.2.1 q q.isLt parent
  | adopted p' place parent' =>
    obtain rfl : p' = p := Option.some.inj (parent'.symm.trans parent)
    have here := sound.at_place p'
    rw [place] at here
    refine step_alive_of sound step (Or.inr here.1.symm) fun status marking => ?_
    rw [place] at marking
    cases marking
  | inherited p' status place before parent' next =>
    obtain rfl : initproc = p := Option.some.inj (parent'.symm.trans parent)
    exact step_init sound step
  | cleared _ parent' => simp [parent'] at parent

theorem step_parented {label : Label} (sound : s.Sound) (step : Step s label s') (other : q ≠ initproc)
    (born : Alive (s'.state q) ∨ s'.state q = .zombie) : s'.parent q ≠ none := by
  have before : s.parent q ≠ none := by
    cases step_turn sound step q with
    | stays same => exact sound.parented q other (same ▸ born)
    | moves before after => exact sound.parented q other (Or.inl before)
    | allocated p pid is_fork before after => simp [Alive, after] at born
    | started p place before after =>
      have here := sound.at_place p
      rw [place] at here
      exact here.2.2
    | exited status is_exit place after =>
      have here := sound.at_place q
      rw [place] at here
      exact sound.parented q other (Or.inl (Or.inr (Or.inr here.1.1)))
    | reaped p is_wait before after orphan => simp [Alive, after] at born
  cases step_inherits step q with
  | stays same => rwa [same]
  | adopted p place parent => simp [parent]
  | inherited p status place before parent next => simp [parent]
  | cleared unused parent => simp [Alive, unused] at born

theorem step_unique {label : Label} (sound : s.Sound) (step : Step s label s') {np : Slot}
    (is : (s'.pc p).child = some np) (is' : (s'.pc q).child = some np) : p = q := by
  rcases step_child step is with old | ⟨unused, -, pid, new⟩ <;>
    rcases step_child step is' with old' | ⟨unused', -, pid', new'⟩
  · exact sound.unique p q np old old'
  · have used := (sound.at_place p).used old
    simp [unused'] at used
  · have used := (sound.at_place q).used old'
    simp [unused] at used
  · cases new.symm.trans new'
    rfl

/-- A process dozes when it has given `wait_lock` back in `sleep`. -/
theorem step_dozing {label : Label} (sound : s.Sound) (step : Step s label s') :
    s'.Dozing q → s.Dozing q ∨ s.pc q = .sleepLocked := by
  cases step with
  | sleepRelease p runs here =>
    intro dozes
    by_cases same : q = p
    · exact Or.inr (same ▸ here)
    · exact Or.inl (by simpa [Dozing, same] using dozes)
  | schedule p free ready =>
    intro dozes
    by_cases same : q = p
    · subst same
      rcases (sound.at_place q).ready ready with can | place
      · have late : s.pc q = .sleepReleased ∨ s.pc q = .asleep :=
          dozes.imp (by simp [can.resumed_eq]) fun both => by simpa [can.resumed_eq] using both.1
        exact absurd late (not_or.mpr can.awake)
      · simp [Dozing, Pc.resumed, place] at dozes
    · exact Or.inl (by simpa [Dozing, same] using dozes)
  | setkilled => exact Or.inl
  | yield | sleep | notify | killFound | forkFails | forkMakes | start | wakeupNext | zombie | reap
  | sleepSched =>
    intro dozes
    simp [Dozing] at dozes ⊢
    grind
  | wakeupEnd p chan i next runs here last =>
    intro dozes
    cases next <;> exact Or.inl (dozes.of_setPc (by simp [After.pc]) (by simp [After.pc]))
  | _ => exact fun dozes => Or.inl (dozes.of_setPc (by simp) (by simp))

theorem pc_of_other {r : Slot} {t : Table} {pc' : Pc} (place : (t.setPc r pc').pc p = pc)
    (other : pc' ≠ pc) : t.pc p = pc := by
  simp only [setPc] at place
  split at place
  · exact absurd place other
  · exact place

theorem pc_of_setPc {r : Slot} {t : Table} {pc₀ pc₁ : Pc} (here : t.pc p = pc₀) (place : t.pc r = pc₁)
    (different : pc₀ ≠ pc₁) : (t.setPc p pc).pc r = pc₁ := by
  have other : r ≠ p := fun same => different (here.symm.trans (same ▸ place))
  simpa [other] using place

/-- A call of `wakeup` goes on until it has come to the process that dozes. -/
theorem step_wakeup {label : Label} (sound : s.Sound) (step : Step s label s') {r : Slot} {i : Nat}
    {next : After} (dozes : s'.Dozing q) (low : i ≤ q.val) :
    s.pc r = .wakeup (some (.proc q)) i next →
      ∃ j, s'.pc r = .wakeup (some (.proc q)) j next ∧ j ≤ q.val := by
  intro place
  have running : s.state r = .running := by
    have here := sound.at_place r
    rw [place] at here
    cases next <;> exact here.1.1
  cases step with
  | wakeupSelf p chan next' runs here =>
    by_cases same : r = p
    · subst same
      cases place.symm.trans here
      have other : q ≠ r := by
        rintro rfl
        rcases dozes with released | ⟨-, asleep⟩
        · simp at released
        · simp [running] at asleep
      exact ⟨r.val + 1, by simp, Nat.lt_of_le_of_ne low fun same => other (Fin.ext same.symm)⟩
    · exact ⟨i, by simpa [same] using place, low⟩
  | wakeupNext p chan i' next' runs here other free =>
    by_cases same : r = p
    · subst same
      cases place.symm.trans here
      have different : q ≠ i' := by
        rintro rfl
        exact not_dozing_wakeup (sound.at_place q) free (dozes.of_setPc (by simp) (by simp))
      exact ⟨i'.val + 1, by simp, Nat.lt_of_le_of_ne low fun same => different (Fin.ext same.symm)⟩
    · exact ⟨i, by simpa [same] using place, low⟩
  | wakeupEnd p chan i' next' runs here last =>
    by_cases same : r = p
    · subst same
      cases place.symm.trans here
      exact absurd q.isLt (by omega)
    · exact ⟨i, by simpa [same] using place, low⟩
  | schedule p free ready =>
    have other : r ≠ p := by
      rintro rfl
      simp [running] at ready
    exact ⟨i, by simpa [other] using place, low⟩
  | forkFails p k runs here free unused | forkMakes p k runs here free unused =>
    have other : r ≠ k := by
      rintro rfl
      simp [running] at unused
    have different : r ≠ p := by
      rintro rfl
      cases here.symm.trans place
    exact ⟨i, by simpa [other, different] using place, low⟩
  | yield | sleep | notify | setkilled => exact ⟨i, place, low⟩
  | _ =>
    have here := ‹s.pc _ = _›
    exact ⟨i, pc_of_setPc here place (by simp), low⟩

/-- A call of `wakeup` is under way for the parent of every process that has exited and whose parent
dozes. -/
theorem step_roused {label : Label} (sound : s.Sound) (step : Step s label s') : s'.Roused := by
  intro q p parent zombie dozes
  have dozed := step_dozing sound step dozes
  cases step_inherits step q with
  | stays same =>
    rw [same] at parent
    cases step_turn sound step q with
    | stays same =>
      rw [same] at zombie
      rcases dozed with dozed | locked
      · obtain ⟨r, chan, i, status, j, place, rfl, low⟩ := sound.roused q p parent zombie dozed
        have here := sound.at_place r
        rw [place] at here
        obtain ⟨i', next, low'⟩ := step_wakeup sound step dozes low (here.2.2 ▸ place)
        exact ⟨r, _, i', status, j, next, rfl, low'⟩
      · have here := sound.at_place p
        rw [locked] at here
        exact absurd zombie (here.2.2.1 q q.isLt parent)
    | exited status is_exit place after =>
      have here := sound.at_place q
      rw [place] at here
      rcases dozed with dozed | locked
      · exact absurd dozed (here.2.2.1 p parent p.isLt)
      · have there := sound.at_place p
        rw [locked] at there
        obtain rfl : p = q := Option.some.inj (there.2.1.symm.trans here.1.2.2)
        cases locked.symm.trans place
    | moves before after => simp [Alive, zombie] at after
    | allocated p' pid is_fork before after => simp [zombie] at after
    | started p' place before after => simp [zombie] at after
    | reaped p' is_wait before after orphan => simp [zombie] at after
  | adopted p' place parent' =>
    have used : s.state q = .used := (sound.at_place p').used (by rw [place]; rfl)
    cases step_turn sound step q with
    | stays same => simp [zombie, used] at same
    | moves before after => simp [Alive, used] at before
    | allocated p' pid is_fork before after => simp [used] at before
    | started p' place before after => simp [zombie] at after
    | exited status is_exit place after =>
      have here := sound.at_place q
      rw [place] at here
      simp [here.1.1] at used
    | reaped p' is_wait before after orphan => simp [used] at before
  | inherited p' status place before parent' next =>
    obtain rfl : initproc = p := Option.some.inj (parent'.symm.trans parent)
    obtain ⟨i, next⟩ := next
    exact ⟨p', _, 0, status, i, next, rfl, Nat.zero_le _⟩
  | cleared _ parent' => simp [parent'] at parent

theorem step_sound {label : Label} (sound : s.Sound) (step : Step s label s') : s'.Sound where
  at_place := step_at sound step
  unique _ _ _ is is' := step_unique sound step is is'
  orphan _ unused := step_orphan sound step unused
  parented _ other born := step_parented sound step other born
  alive _ _ parent := step_alive sound step parent
  init := step_init sound step
  roused := step_roused sound step

end Table

/-! ### Runs -/

theorem boot_sound : boot.Sound where
  at_place p := by
    show boot.state p ≠ .zombie ∧ (boot.state p = .sleeping → _)
    unfold boot
    dsimp only
    split <;> simp
  unique _ _ _ is := by cases is
  orphan _ _ := rfl
  parented q other born := by
    simp [boot, other, Table.Alive] at born
  alive _ _ parent := by cases parent
  init := by simp [boot, Table.Alive]
  roused _ _ parent := by cases parent

variable {labels : List Label} {s s' : Table} {p q : Slot}

theorem sound_of_run (run : Run Step boot labels s) : s.Sound :=
  run.invariant (fun _ _ _ => Table.step_sound) boot_sound

/-- **No orphans.** In every reachable state `init` is alive, every parent is alive, and every process
that was started, except `init`, has a parent. -/
theorem children_have_living_parents (run : Run Step boot labels s) :
    Table.Alive (s.state initproc) ∧ (∀ q p, s.parent q = some p → Table.Alive (s.state p)) ∧
      ∀ q, q ≠ initproc → Table.Alive (s.state q) ∨ s.state q = .zombie → s.parent q ≠ none := by
  have sound := sound_of_run run
  exact ⟨sound.init, sound.alive, sound.parented⟩

theorem children_have_living_parents_of_child : ∃ labels s, Run Step boot labels s ∧
    s.state firstSlot = .zombie ∧ s.parent firstSlot ≠ none := by
  obtain ⟨labels, s, run, -, zombie, -⟩ := waits_for_child
  exact ⟨labels, s, run, zombie, (children_have_living_parents run).2.2 firstSlot (by decide)
    (Or.inr zombie)⟩

/-- A process that sleeps on itself is in `wait`. -/
theorem Table.Sound.dozing (sound : s.Sound) (asleep : s.state p = .sleeping)
    (own : s.chan p = some (.proc p)) : s.Dozing p := by
  have here := sound.at_place p
  rcases here.idle (by simp [Up, asleep]) with place | place | place | place | place
  · rw [place] at here
    obtain ⟨n, other⟩ := here.2 asleep
    cases own.symm.trans other
  · exact Or.inr ⟨place, asleep⟩
  all_goals
    rw [place] at here
    simp [Table.At, asleep] at here

/-- **No lost wakeup.** Unless a process holds `wait_lock`, no process sleeps in `wait` while a child of it
has exited. -/
theorem no_lost_wakeup (run : Run Step boot labels s) (free : s.wait_lock = none) :
    ∀ p q, s.state p = .sleeping → s.chan p = some (.proc p) → s.parent q = some p →
      s.state q ≠ .zombie := by
  intro p q asleep own parent zombie
  have sound := sound_of_run run
  obtain ⟨r, chan, i, status, j, place, -, -⟩ :=
    sound.roused q p parent zombie (sound.dozing asleep own)
  have here := sound.at_place r
  rw [place] at here
  exact absurd (free.symm.trans here.1.2.2) nofun

/-- Before `init` comes back to `wait`, it is awake. -/
theorem no_lost_wakeup_of_child : ∃ labels s, Run Step boot labels s ∧
    s.state firstSlot = .zombie ∧ s.parent firstSlot = some initproc ∧
      ¬ (s.state initproc = .sleeping ∧ s.chan initproc = some (.proc initproc)) := by
  have performed : ((waitForChild.take (waitForChild.length - 3)).foldlM Table.perform boot).any
      (fun s => decide (s.wait_lock = none ∧ s.state firstSlot = .zombie ∧
        s.parent firstSlot = some initproc)) = true := by
    decide +kernel
  obtain ⟨labels, s, run, -, checked⟩ := exists_run performed
  obtain ⟨free, zombie, parent⟩ := of_decide_eq_true checked
  refine ⟨labels, s, run, zombie, parent, fun ⟨asleep, own⟩ => ?_⟩
  exact no_lost_wakeup run free initproc firstSlot asleep own parent zombie

end Csc3150.Lifecycle
