/-
**A proof outline of `fork`, `exit` and `wait`.**

`Table.At` says what holds of a process at each place of its code. A step of one process leaves the
others what they know, as far as it does only what they tolerate.

* `At.stable` — what holds at a place is stable under the steps that are tolerated;
* `tolerates_*` — which parts of a step are;
* `at_setPc` — a process moves on and the others stay.
-/

import Csc3150.Lifecycle.Model

namespace Csc3150.Lifecycle

open Mmap (NPROC initproc)

/-- The child that a `fork` has allocated. -/
def Pc.child : Pc → Option Slot
  | .adopt np | .start np => some np
  | _ => none

/-- A process that yielded goes on where it was. -/
theorem Pc.Interruptible.resumed_eq {pc : Pc} (can : pc.Interruptible) : pc.resumed = pc := by
  cases pc with
  | asleep => exact can.elim
  | _ => rfl

theorem Pc.eq_of_resumed {pc pc' : Pc} (goes : pc.resumed = pc') (inside : pc' ≠ .wait) : pc = pc' := by
  cases pc with
  | asleep => exact absurd goes.symm inside
  | _ => exact goes

theorem Pc.Interruptible.awake {pc : Pc} (can : pc.Interruptible) :
    pc ≠ .sleepReleased ∧ pc ≠ .asleep := by
  constructor <;> rintro rfl <;> exact can

namespace Table

variable (s : Table) (p : Slot)

/-- The process sleeps in `wait`, or is about to and has given `wait_lock` back. -/
def Dozing : Prop := s.pc p = .sleepReleased ∨ s.pc p = .asleep ∧ s.state p = .sleeping

/-- The process runs, or it yielded and waits for a CPU. -/
def Up : Prop := s.state p = .running ∨ s.state p = .runnable

/-- The process holds `wait_lock` while it exits. -/
def Exiting : Prop := s.state p = .running ∧ p ≠ initproc ∧ s.wait_lock = some p

/-- No slot below a bound has a child of the process. -/
def Childless (bound : Nat) : Prop := ∀ k : Slot, k.val < bound → s.parent k ≠ some p

variable {s p} in
theorem Childless.mono {bound bound' : Nat} (none : s.Childless p bound) (le : bound' ≤ bound) :
    s.Childless p bound' :=
  fun k low => none k (Nat.lt_of_lt_of_le low le)

/-- A parent of the process below a bound does not doze. -/
def Told (bound : Nat) : Prop := ∀ q : Slot, s.parent p = some q → q.val < bound → ¬ s.Dozing q

/-- No slot below a bound has a child of the process that has exited. -/
def Scanned (bound : Nat) : Prop :=
  ∀ k : Slot, k.val < bound → s.parent k = some p → s.state k ≠ .zombie

/-- What holds of a process at a place. -/
def At : Pc → Prop
  | .user => s.state p ≠ .zombie ∧ (s.state p = .sleeping → ∃ n, s.chan p = some (.other n))
  | .kill .. | .fork _ | .wait => s.Up p
  | .adopt np => s.Up p ∧ s.state np = .used
  | .start np => s.Up p ∧ s.state np = .used ∧ s.parent np ≠ none
  | .exit _ => s.Up p ∧ p ≠ initproc
  | .reparent _ i => s.Exiting p ∧ s.Childless p i
  | .wakeup chan _ (.reparent _ i) =>
    s.Exiting p ∧ s.Childless p i ∧ chan = some (.proc initproc)
  | .wakeup chan i (.mark _) =>
    s.Exiting p ∧ s.Childless p NPROC ∧ chan = (s.parent p).map .proc ∧ s.Told p i
  | .mark _ => s.Exiting p ∧ s.Childless p NPROC ∧ s.Told p NPROC
  | .marking _ => s.Exiting p ∧ s.Childless p NPROC ∧ s.Told p NPROC ∧ s.lock p = some p
  | .marked => s.state p = .zombie ∧ s.wait_lock = some p ∧ s.lock p = some p
  | .leaving => s.state p = .zombie ∧ s.lock p = some p
  | .dead => s.state p = .zombie ∨ s.state p = .unused
  | .scan i havekids => s.state p = .running ∧ s.wait_lock = some p ∧ s.Scanned p i ∧
    (havekids = true ↔ ∃ k : Slot, k.val < i ∧ s.parent k = some p)
  | .sleep => s.state p = .running ∧ s.wait_lock = some p ∧ s.Scanned p NPROC
  | .sleepLocked =>
    s.state p = .running ∧ s.wait_lock = some p ∧ s.Scanned p NPROC ∧ s.lock p = some p
  | .sleepReleased => s.state p = .running ∧ s.lock p = some p
  | .asleep => s.state p = .sleeping ∧ s.chan p = some (.proc p) ∨ s.state p = .runnable

variable {s p} in
/-- The scan of `wait` passes a slot of another parent. -/
theorem Childless.next {i : Slot} (none : s.Childless p i) (other : s.parent i ≠ some p) :
    s.Childless p (i + 1) := by
  intro k low
  rcases Nat.lt_succ_iff_lt_or_eq.mp low with earlier | same
  · exact none k earlier
  · exact Fin.ext same ▸ other

variable {s p} in
theorem Scanned.mono {bound bound' : Nat} (scanned : s.Scanned p bound) (le : bound' ≤ bound) :
    s.Scanned p bound' :=
  fun k low => scanned k (Nat.lt_of_lt_of_le low le)

variable {s p} in
theorem Told.mono {bound bound' : Nat} (told : s.Told p bound) (le : bound' ≤ bound) :
    s.Told p bound' :=
  fun q parent low => told q parent (Nat.lt_of_lt_of_le low le)

variable {s p} in
/-- The scan of `wait` passes a child that is no zombie. -/
theorem Scanned.next {i : Slot} (scanned : s.Scanned p i)
    (alive : s.parent i = some p → s.state i ≠ .zombie) : s.Scanned p (i + 1) := by
  intro k low parent
  rcases Nat.lt_succ_iff_lt_or_eq.mp low with earlier | same
  · exact scanned k earlier parent
  · obtain rfl : k = i := Fin.ext same
    exact alive parent

variable {s p} in
/-- A slot of another parent adds no child to those that the scan has seen. -/
theorem exists_lt_succ {i : Slot} (other : s.parent i ≠ some p) :
    (∃ k : Slot, k.val < i.val + 1 ∧ s.parent k = some p) ↔
      ∃ k : Slot, k.val < i.val ∧ s.parent k = some p := by
  refine ⟨fun ⟨k, low, parent⟩ => ?_, fun ⟨k, low, parent⟩ => ⟨k, Nat.lt_succ_of_lt low, parent⟩⟩
  rcases Nat.lt_succ_iff_lt_or_eq.mp low with earlier | same
  · exact ⟨k, earlier, parent⟩
  · exact absurd (Fin.ext same ▸ parent) other

variable {s p} in
/-- Where a process is that neither runs nor waits for a CPU. -/
theorem At.idle {pc : Pc} (here : s.At p pc) (idle : ¬ s.Up p) :
    pc = .user ∨ pc = .asleep ∨ pc = .marked ∨ pc = .leaving ∨ pc = .dead := by
  by_contra busy
  apply idle
  cases pc with
  | user | asleep | marked | leaving | dead => simp at busy
  | kill | fork | wait => exact here
  | adopt | start | exit => exact here.1
  | wakeup chan i next => cases next <;> exact Or.inl here.1.1
  | reparent | mark | marking => exact Or.inl here.1.1
  | scan | sleep | sleepLocked | sleepReleased => exact Or.inl here.1

variable {s p} in
/-- A process that executes is in none of the other states. -/
theorem Up.alive (up : s.Up p) : s.state p ≠ .unused ∧ s.state p ≠ .used ∧ s.state p ≠ .zombie := by
  rcases up with runs | waits
  · simp [runs]
  · simp [waits]

/-- What a process tolerates while others take a step. -/
structure Tolerates (s' : Table) : Prop where
  pc : s'.pc p = s.pc p
  state : s'.state p = s.state p ∨ s.state p = .sleeping ∧ s'.state p = .runnable
  chan : s'.chan p = s.chan p
  lock : s'.lock p = s.lock p
  child : ∀ np, (s.pc p).child = some np → s.state np = .used →
    s'.state np = .used ∧ (s.parent np ≠ none → s'.parent np ≠ none)
  wait : s.wait_lock = some p → s'.wait_lock = some p
  parents : s.wait_lock = some p → s'.parent p = s.parent p ∧
    ∀ k, s'.parent k = some p ↔ s.parent k = some p
  zombies : s.wait_lock = some p → ∀ k, s'.state k = .zombie → s.state k = .zombie
  awake : s.wait_lock = some p → ∀ k, s'.Dozing k → s.Dozing k

variable {s p} {s' : Table}

/-- What holds at a place is stable under the steps that are tolerated. -/
theorem At.stable (here : s.At p (s.pc p)) (tolerates : s.Tolerates p s') : s'.At p (s'.pc p) := by
  obtain ⟨same, state, chan, lock, child, wait, parents, zombies, awake⟩ := tolerates
  have still : ∀ {st}, st ≠ .sleeping → s.state p = st → s'.state p = st := by
    intro st other is
    rcases state with same | ⟨asleep, -⟩
    · rw [same, is]
    · exact absurd (is.symm.trans asleep) other
  have up : s.Up p → s'.Up p := Or.imp (still (by simp)) (still (by simp))
  have exiting : s.Exiting p → s'.Exiting p := fun here =>
    ⟨still (by simp) here.1, here.2.1, wait here.2.2⟩
  have childless : ∀ {n}, s.Exiting p → s.Childless p n → s'.Childless p n := fun here none k low =>
    mt ((parents here.2.2).2 k).mp (none k low)
  have told : ∀ {n}, s.Exiting p → s.Told p n → s'.Told p n := fun here told q parent low =>
    mt (awake here.2.2 q) (told q ((parents here.2.2).1 ▸ parent) low)
  have scanned : ∀ {n}, s.wait_lock = some p → s.Scanned p n → s'.Scanned p n :=
    fun here scanned k low parent =>
      mt (zombies here k) (scanned k low (((parents here).2 k).mp parent))
  rw [same]
  generalize place : s.pc p = pc at here child
  cases pc with
  | user =>
    refine ⟨?_, fun asleep => ?_⟩
    · rcases state with same | ⟨-, roused⟩
      · exact same ▸ here.1
      · simp [roused]
    · rcases state with same | ⟨-, roused⟩
      · exact chan ▸ here.2 (same ▸ asleep)
      · simp [roused] at asleep
  | kill | fork | wait => exact up here
  | adopt np => exact ⟨up here.1, (child np rfl here.2).1⟩
  | start np =>
    obtain ⟨used, parented⟩ := child np rfl here.2.1
    exact ⟨up here.1, used, parented here.2.2⟩
  | exit status => exact ⟨up here.1, here.2⟩
  | reparent status i => exact ⟨exiting here.1, childless here.1 here.2⟩
  | wakeup named i next =>
    cases next with
    | reparent status j => exact ⟨exiting here.1, childless here.1 here.2.1, here.2.2⟩
    | mark status =>
      obtain ⟨exits, none, names, tells⟩ := here
      exact ⟨exiting exits, childless exits none, (parents exits.2.2).1 ▸ names, told exits tells⟩
  | mark status => exact ⟨exiting here.1, childless here.1 here.2.1, told here.1 here.2.2⟩
  | marking status =>
    obtain ⟨exits, none, tells, held⟩ := here
    exact ⟨exiting exits, childless exits none, told exits tells, lock ▸ held⟩
  | marked => exact ⟨still (by simp) here.1, wait here.2.1, lock ▸ here.2.2⟩
  | leaving => exact ⟨still (by simp) here.1, lock ▸ here.2⟩
  | dead => exact here.imp (still (by simp)) (still (by simp))
  | scan i havekids =>
    obtain ⟨runs, holds, scan, kids⟩ := here
    refine ⟨still (by simp) runs, wait holds, scanned holds scan, kids.trans ?_⟩
    exact exists_congr fun k => and_congr_right fun _ => ((parents holds).2 k).symm
  | sleep => exact ⟨still (by simp) here.1, wait here.2.1, scanned here.2.1 here.2.2⟩
  | sleepLocked =>
    obtain ⟨runs, holds, scan, held⟩ := here
    exact ⟨still (by simp) runs, wait holds, scanned holds scan, lock ▸ held⟩
  | sleepReleased => exact ⟨still (by simp) here.1, lock ▸ here.2⟩
  | asleep =>
    rcases here with ⟨asleep, named⟩ | ready
    · rcases state with same | ⟨-, roused⟩
      · exact Or.inl ⟨same.trans asleep, chan.trans named⟩
      · exact Or.inr roused
    · exact Or.inr (still (by simp) ready)

/-- At a place where a process may yield, it may be picked again. -/
theorem At.interrupted {t : Table} {pc : Pc} {state : ProcState} (here : s.At p pc)
    (can : pc.Interruptible) (up : state = .running ∨ state = .runnable)
    (states : t.state = (s.setState p state).state) (parents : t.parent = s.parent) : t.At p pc := by
  have own : t.state p = state := by simp [states]
  have up : t.Up p := up.imp own.trans own.trans
  have child : ∀ {np}, s.Up p → s.state np = .used → t.state np = .used := by
    intro np was used
    have other : np ≠ p := fun same => was.alive.2.1 (same ▸ used)
    simpa [states, other] using used
  cases pc with
  | user =>
    refine ⟨up.alive.2.2, fun asleep => ?_⟩
    rcases up with runs | waits
    · exact absurd (asleep.symm.trans runs) ProcState.noConfusion
    · exact absurd (asleep.symm.trans waits) ProcState.noConfusion
  | kill | fork | wait => exact up
  | adopt np => exact ⟨up, child here.1 here.2⟩
  | start np => exact ⟨up, child here.1 here.2.1, parents ▸ here.2.2⟩
  | exit status => exact ⟨up, here.2⟩
  | _ => exact can.elim

/-- What two changes leave alone. -/
theorem Tolerates.trans {t : Table} (first : s.Tolerates p t) (second : t.Tolerates p s') :
    s.Tolerates p s' where
  pc := second.pc.trans first.pc
  state := by
    have := first.state
    have := second.state
    grind
  chan := second.chan.trans first.chan
  lock := second.lock.trans first.lock
  child np is used := by
    obtain ⟨used', kept⟩ := first.child np is used
    obtain ⟨used'', kept'⟩ := second.child np (first.pc ▸ is) used'
    exact ⟨used'', kept' ∘ kept⟩
  wait holds := second.wait (first.wait holds)
  parents holds := by
    obtain ⟨same, children⟩ := first.parents holds
    obtain ⟨same', children'⟩ := second.parents (first.wait holds)
    exact ⟨same'.trans same, fun k => (children' k).trans (children k)⟩
  zombies holds k dead := first.zombies holds k (second.zombies (first.wait holds) k dead)
  awake holds k dozes := first.awake holds k (second.awake (first.wait holds) k dozes)

/-- Flags and statuses are not mentioned. -/
theorem tolerates_flags {killed : Slot → Bool} {xstate : Slot → Int32} :
    s.Tolerates p { s with killed := killed, xstate := xstate } where
  pc := rfl
  state := Or.inl rfl
  chan := rfl
  lock := rfl
  child _ _ used := ⟨used, id⟩
  wait := id
  parents _ := ⟨rfl, fun _ => Iff.rfl⟩
  zombies _ _ := id
  awake _ _ := id

theorem Tolerates.refl : s.Tolerates p s := tolerates_flags

variable {q i : Slot} {pc : Pc} {state : ProcState} {chan : Option Chan} {parent : Option Slot}

/-- Another process may move on, but not go to sleep while a process that has `wait_lock` looks at it. -/
theorem tolerates_setPc (other : q ≠ p)
    (dozes : s.wait_lock = some q → pc = .sleepReleased ∨ pc = .asleep → s.Dozing p) :
    s.Tolerates q (s.setPc p pc) where
  pc := if_neg other
  state := Or.inl rfl
  chan := rfl
  lock := rfl
  child _ _ used := ⟨used, id⟩
  wait := id
  parents _ := ⟨rfl, fun _ => Iff.rfl⟩
  zombies _ _ := id
  awake holds k late := by
    by_cases same : k = p
    · subst same
      have late : pc = .sleepReleased ∨ pc = .asleep ∧ s.state k = .sleeping := by
        simpa [Dozing] using late
      exact dozes holds (late.imp id And.left)
    · simpa [Dozing, same] using late

/-- A change of states: a child under way stays `USED`, and while the process has `wait_lock` none exits
and none falls asleep in `wait`. -/
theorem tolerates_states {states : Slot → ProcState}
    (own : states q = s.state q ∨ s.state q = .sleeping ∧ states q = .runnable)
    (spare : ∀ np, (s.pc q).child = some np → s.state np = .used → states np = .used)
    (zombie : s.wait_lock = some q → ∀ k, states k = .zombie → s.state k = .zombie)
    (sleeping : s.wait_lock = some q → ∀ k, s.pc k = .asleep → states k = .sleeping →
      s.state k = .sleeping) :
    s.Tolerates q { s with state := states } where
  pc := rfl
  state := own
  chan := rfl
  lock := rfl
  child np is used := ⟨spare np is used, id⟩
  wait := id
  parents _ := ⟨rfl, fun _ => Iff.rfl⟩
  zombies := zombie
  awake holds k := Or.imp id fun ⟨place, asleep⟩ => ⟨place, sleeping holds k place asleep⟩

/-- Another slot changes its state: the cases in which `q` would notice are excluded. -/
theorem tolerates_setState (other : q ≠ p)
    (spare : (s.pc q).child = some p → s.state p = .used → state = .used)
    (zombie : state = .zombie → s.wait_lock ≠ some q)
    (sleeping : state = .sleeping → s.pc p ≠ .asleep) :
    s.Tolerates q (s.setState p state) := by
  refine tolerates_states (Or.inl (if_neg other)) (fun np is used => ?_) (fun holds k dead => ?_)
    (fun _ k place asleep => ?_)
  · split
    · next same => exact spare (same ▸ is) (same ▸ used)
    · exact used
  · split at dead
    · exact absurd holds (zombie dead)
    · exact dead
  · split at asleep
    · next same => exact absurd (same ▸ place) (sleeping asleep)
    · exact asleep

/-- A process may be woken. -/
theorem tolerates_rouse {cond : Prop} [Decidable cond] : s.Tolerates q
    (s.setState i (if s.state i = .sleeping ∧ cond then .runnable else s.state i)) := by
  have roused : ∀ k, (if k = i then
      if s.state i = .sleeping ∧ cond then ProcState.runnable else s.state i else s.state k) =
        s.state k ∨ s.state k = .sleeping ∧ (if k = i then
          if s.state i = .sleeping ∧ cond then ProcState.runnable else s.state i else s.state k) =
            .runnable := by
    intro k
    by_cases same : k = i
    · subst same
      by_cases wakes : s.state k = .sleeping ∧ cond
      · exact Or.inr ⟨wakes.1, by simp [wakes]⟩
      · exact Or.inl (by simp [wakes])
    · exact Or.inl (if_neg same)
  refine tolerates_states (roused q) (fun np _ used => ?_) (fun _ k dead => ?_) (fun _ k _ asleep => ?_)
  · rcases roused np with same | ⟨asleep, -⟩
    · exact same.trans used
    · exact absurd (used.symm.trans asleep) ProcState.noConfusion
  · rcases roused k with same | ⟨-, ready⟩
    · exact same.symm.trans dead
    · exact absurd (dead.symm.trans ready) ProcState.noConfusion
  · rcases roused k with same | ⟨was, -⟩
    · exact same.symm.trans asleep
    · exact was

theorem tolerates_wakeup : s.Tolerates q (s.wakeup i chan) := tolerates_rouse

/-- `kill` marks a slot and may rouse it. -/
theorem tolerates_kill : s.Tolerates q (s.kill i) := by
  have rouse := @tolerates_rouse (s.setKilled i) q i True _
  simp only [and_true] at rouse
  exact tolerates_flags.trans rouse

theorem tolerates_setChan (other : q ≠ p) : s.Tolerates q (s.setChan p chan) where
  pc := rfl
  state := Or.inl rfl
  chan := if_neg other
  lock := rfl
  child _ _ used := ⟨used, id⟩
  wait := id
  parents _ := ⟨rfl, fun _ => Iff.rfl⟩
  zombies _ _ := id
  awake _ _ := id

/-- The locks of other processes may be taken and given back. -/
theorem tolerates_lock {lock : Slot → Option Slot} (same : lock q = s.lock q) :
    s.Tolerates q { s with lock := lock } where
  pc := rfl
  state := Or.inl rfl
  chan := rfl
  lock := same
  child _ _ used := ⟨used, id⟩
  wait := id
  parents _ := ⟨rfl, fun _ => Iff.rfl⟩
  zombies _ _ := id
  awake _ _ := id

/-- Another slot's lock is not mentioned. -/
theorem tolerates_hold (other : q ≠ p) : s.Tolerates q (s.hold p) := tolerates_lock (if_neg other)

theorem tolerates_release (other : q ≠ p) : s.Tolerates q (s.release p) :=
  tolerates_lock (if_neg other)

/-- `wait_lock` changes hands, but not from `q`. -/
theorem tolerates_wait_lock {holder : Option Slot} (kept : s.wait_lock = some q → holder = some q) :
    s.Tolerates q { s with wait_lock := holder } where
  pc := rfl
  state := Or.inl rfl
  chan := rfl
  lock := rfl
  child _ _ used := ⟨used, id⟩
  wait := kept
  parents _ := ⟨rfl, fun _ => Iff.rfl⟩
  zombies _ _ := id
  awake _ _ := id

theorem tolerates_holdWait (free : s.wait_lock = none) : s.Tolerates q (s.holdWait p) :=
  tolerates_wait_lock fun holds => absurd (free.symm.trans holds) (Option.some_ne_none q).symm

theorem tolerates_releaseWait (other : q ≠ p) (holds : s.wait_lock = some p) :
    s.Tolerates q s.releaseWait :=
  tolerates_wait_lock fun held => absurd (Option.some.inj (held.symm.trans holds)) other

/-- A slot may get a parent while the process does not have `wait_lock`. -/
theorem tolerates_setParent (free : s.wait_lock ≠ some q) :
    s.Tolerates q (s.setParent i (some p)) where
  pc := rfl
  state := Or.inl rfl
  chan := rfl
  lock := rfl
  child np _ used := by
    refine ⟨used, fun parented => ?_⟩
    by_cases same : np = i
    · simp [same]
    · simpa [same] using parented
  wait := id
  parents holds := absurd holds free
  zombies holds := absurd holds free
  awake holds := absurd holds free

/-- `allocproc` may take another slot. -/
theorem tolerates_alloc (other : q ≠ i) : s.Tolerates q (s.alloc i) where
  pc := if_neg other
  state := Or.inl (if_neg other)
  chan := rfl
  lock := rfl
  child np _ used := by
    refine ⟨?_, id⟩
    by_cases same : np = i
    · simp [same]
    · simpa [same] using used
  wait := id
  parents _ := ⟨rfl, fun _ => Iff.rfl⟩
  zombies _ k dead := by
    by_cases same : k = i
    · simp [same] at dead
    · simpa [same] using dead
  awake _ k dozes := by
    by_cases same : k = i
    · simp [Dozing, same] at dozes
    · simpa [Dozing, same] using dozes

/-- Another slot may be freed, unless the process has it under way or sees it as a child. -/
theorem tolerates_freeproc (other : q ≠ i) (spare : ∀ np, (s.pc q).child = some np → np ≠ i)
    (parent : s.wait_lock = some q → s.parent i = none) : s.Tolerates q (s.freeproc i) where
  pc := rfl
  state := Or.inl (if_neg other)
  chan := if_neg other
  lock := rfl
  child np is used := by simpa [spare np is] using used
  wait := id
  parents holds := by
    refine ⟨if_neg other, fun k => ?_⟩
    by_cases same : k = i
    · simp [same, parent holds]
    · simp [same]
  zombies _ k dead := by
    by_cases same : k = i
    · simp [same] at dead
    · simpa [same] using dead
  awake _ k dozes := by
    by_cases same : k = i
    · exact Or.inl (by simpa [Dozing, same] using dozes)
    · simpa [Dozing, same] using dozes

/-- One process moves; the others tolerate it. -/
theorem at_of_own {s' : Table} (all : ∀ q, s.At q (s.pc q)) (own : s'.At p (s'.pc p))
    (others : ∀ q, q ≠ p → s.Tolerates q s') (q : Slot) : s'.At q (s'.pc q) := by
  by_cases same : q = p
  · rw [same]
    exact own
  · exact (all q).stable (others q same)

/-- Whoever dozes after another process moved on dozed before. -/
theorem Dozing.of_setPc (dozes : (s.setPc p pc).Dozing q) (released : pc ≠ .sleepReleased)
    (asleep : pc ≠ .asleep) : s.Dozing q := by
  simp [Dozing] at *
  grind

theorem Told.setPc {n : Nat} (told : s.Told p n) (released : pc ≠ .sleepReleased)
    (asleep : pc ≠ .asleep) : (s.setPc p pc).Told p n :=
  fun q parent low dozes => told q parent low (dozes.of_setPc released asleep)

/-- A call of `wakeup` rouses the slot it looks at, when that dozes on the channel. -/
theorem not_dozing_wakeup (here : s.At i (s.pc i)) (free : s.lock i = none) :
    ¬ (s.wakeup i (some (.proc i))).Dozing i := by
  intro dozes
  simp [Dozing] at dozes
  rcases dozes with released | ⟨asleep, sleeping⟩
  · rw [released] at here
    exact absurd (free.symm.trans here.2) nofun
  · rw [asleep] at here
    rcases here with ⟨state, chan⟩ | state <;> simp_all

/-- Where a process is that a CPU may pick. -/
theorem At.ready (here : s.At p pc) (ready : s.state p = .runnable) :
    pc.Interruptible ∨ pc = .asleep := by
  cases pc with
  | user | kill | fork | adopt | start | exit | wait => exact Or.inl trivial
  | asleep => exact Or.inr rfl
  | wakeup chan i next => cases next <;> exact absurd (ready.symm.trans here.1.1) ProcState.noConfusion
  | reparent | mark | marking => exact absurd (ready.symm.trans here.1.1) ProcState.noConfusion
  | dead => rcases here with state | state <;> exact absurd (ready.symm.trans state) ProcState.noConfusion
  | _ => exact absurd (ready.symm.trans here.1) ProcState.noConfusion

/-- A process in `fork` has a child in the making. -/
theorem At.used {np : Slot} (here : s.At p pc) (child : pc.child = some np) : s.state np = .used := by
  cases pc with
  | adopt np' =>
    cases child
    exact here.2
  | start np' =>
    cases child
    exact here.2.1
  | _ => cases child

theorem At.forks {np : Slot} (here : s.At p pc) (child : pc.child = some np) : s.Up p := by
  cases pc with
  | adopt np' | start np' => exact here.1
  | _ => cases child

/-- The process moves on; the others are where they were. -/
theorem at_moved {t : Table} (own : (t.setPc p pc).At p pc)
    (others : ∀ q, q ≠ p → t.At q (t.pc q))
    (dozes : pc = .sleepReleased ∨ pc = .asleep → t.Dozing p ∨ t.wait_lock = some p) (q : Slot) :
    (t.setPc p pc).At q ((t.setPc p pc).pc q) := by
  by_cases same : q = p
  · simpa [same] using own
  · refine (others q same).stable (tolerates_setPc same fun holds late => ?_)
    rcases dozes late with dozes | held
    · exact dozes
    · rw [holds] at held
      exact absurd (Option.some.inj held) same

/-- A process moves on in its code after a change of the table. -/
theorem at_setPc {t : Table} (all : ∀ q, s.At q (s.pc q)) (own : (t.setPc p pc).At p pc)
    (others : ∀ q, q ≠ p → s.Tolerates q t)
    (dozes : pc = .sleepReleased ∨ pc = .asleep → t.Dozing p ∨ t.wait_lock = some p) :
    ∀ q, (t.setPc p pc).At q ((t.setPc p pc).pc q) :=
  at_moved own (fun q other => (all q).stable (others q other)) dozes

end Table

end Csc3150.Lifecycle
