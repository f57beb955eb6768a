/-
**The life of a process.**

`fork`, `exit`, `wait`, `kill`, `sleep` and `wakeup` of any number of processes on any number of CPUs.
A step is one section between taking and giving back a lock. Where the locks of two sections overlap
(`sleep` hands `wait_lock` back under its own lock, `exit` marks itself under both), each lock
operation is a step of its own.

* `Table` — the fields of `struct proc` that these functions use, and the locks;
* `Pc` — where a process is in them; `myproc` is the process that takes the step;
* `Step` — one section; what `kalloc` and `copyout` answer is left open.
-/

import Csc3150.Library.Transition
import Csc3150.Mmap.Kernel

namespace Csc3150.Lifecycle

open Mmap (NPROC initproc)
open Transition

/-- A slot of the process table. -/
abbrev Slot := Mmap.Pid

/-- `enum procstate`. -/
inductive ProcState
  | unused
  | used
  | sleeping
  | runnable
  | running
  | zombie
  deriving DecidableEq

/-- What a process sleeps on: the address of a process, in `wait`, or something else. -/
inductive Chan
  | proc (p : Slot)
  | other (n : Nat)
  deriving DecidableEq

/-- What `exit` does after a call of `wakeup`. -/
inductive After
  | reparent (status : Int32) (i : Nat)
  | mark (status : Int32)
  deriving DecidableEq

/-- Where a process is; `i` counts the slots of a loop over the table. -/
inductive Pc
  /-- Outside of the functions below. -/
  | user
  | kill (pid : Int32) (i : Nat)
  /-- The loop of `allocproc`. -/
  | fork (i : Nat)
  /-- Before `np->parent = p`. -/
  | adopt (np : Slot)
  /-- Before `np->state = RUNNABLE`. -/
  | start (np : Slot)
  /-- Before `acquire(&wait_lock)`. -/
  | exit (status : Int32)
  | reparent (status : Int32) (i : Nat)
  | wakeup (chan : Option Chan) (i : Nat) (next : After)
  /-- Before `acquire(&p->lock)`. -/
  | mark (status : Int32)
  /-- Before `p->state = ZOMBIE`. -/
  | marking (status : Int32)
  /-- Before `release(&wait_lock)`. -/
  | marked
  /-- On the way to the scheduler. -/
  | leaving
  | dead
  /-- Before `acquire(&wait_lock)`. -/
  | wait
  | scan (i : Nat) (havekids : Bool)
  /-- In `sleep(p, &wait_lock)`, before `acquire(&p->lock)`. -/
  | sleep
  /-- Before `release(lk)`. -/
  | sleepLocked
  /-- Before `p->state = SLEEPING`. -/
  | sleepReleased
  | asleep
  deriving DecidableEq

/-- The process holds no lock there, so a timer interrupt may make it yield. -/
def Pc.Interruptible : Pc → Prop
  | .user | .kill .. | .fork _ | .adopt _ | .start _ | .exit _ | .wait => True
  | _ => False

/-- Where a process goes on when a CPU picks it: after `sleep`, at the top of the loop of `wait`. -/
def Pc.resumed : Pc → Pc
  | .asleep => .wait
  | pc => pc

def After.pc : After → Pc
  | .reparent status i => .reparent status i
  | .mark status => .mark status

/-- The process table, one function for each field, and the locks with their holders. -/
structure Table where
  state : Slot → ProcState
  chan : Slot → Option Chan
  killed : Slot → Bool
  xstate : Slot → Int32
  pid : Slot → Int32
  parent : Slot → Option Slot
  pc : Slot → Pc
  lock : Slot → Option Slot
  wait_lock : Option Slot
  nextpid : Int32

namespace Table

variable (s : Table) (p q : Slot)

@[simp] def setPc (pc : Pc) : Table := { s with pc := fun q => if q = p then pc else s.pc q }

@[simp] def setState (state : ProcState) : Table :=
  { s with state := fun q => if q = p then state else s.state q }

@[simp] def setParent (parent : Option Slot) : Table :=
  { s with parent := fun q => if q = p then parent else s.parent q }

@[simp] def setChan (chan : Option Chan) : Table :=
  { s with chan := fun q => if q = p then chan else s.chan q }

@[simp] def setKilled : Table := { s with killed := fun q => if q = p then true else s.killed q }

@[simp] def setXstate (status : Int32) : Table :=
  { s with xstate := fun q => if q = p then status else s.xstate q }

/-- `acquire(&wait_lock)` by a process. -/
@[simp] def holdWait : Table := { s with wait_lock := some p }

@[simp] def releaseWait : Table := { s with wait_lock := none }

/-- `acquire(&p->lock)` by the process itself. -/
@[simp] def hold : Table := { s with lock := fun q => if q = p then some p else s.lock q }

@[simp] def release : Table := { s with lock := fun q => if q = p then none else s.lock q }

/-- `if(p->state == SLEEPING && p->chan == chan) p->state = RUNNABLE`. -/
@[simp] def wakeup (chan : Option Chan) : Table :=
  s.setState p (if s.state p = .sleeping ∧ s.chan p = chan then .runnable else s.state p)

/-- What `kill` does to the process it finds. -/
@[simp] def kill : Table :=
  (s.setKilled p).setState p (if s.state p = .sleeping then .runnable else s.state p)

/-- `allocproc` of a slot: a new pid, and the state `USED`. -/
@[simp] def alloc : Table :=
  { s.setState p .used with
    pid := fun q => if q = p then s.nextpid else s.pid q
    pc := fun q => if q = p then .user else s.pc q
    nextpid := s.nextpid + 1 }

@[simp] def freeproc : Table :=
  { s with
    state := fun q => if q = p then .unused else s.state q
    chan := fun q => if q = p then none else s.chan q
    killed := fun q => if q = p then false else s.killed q
    xstate := fun q => if q = p then 0 else s.xstate q
    pid := fun q => if q = p then 0 else s.pid q
    parent := fun q => if q = p then none else s.parent q }

end Table

/-- The table after `userinit`. -/
def boot : Table where
  state p := if p = initproc then .runnable else .unused
  chan _ := none
  killed _ := false
  xstate _ := 0
  pid p := if p = initproc then 1 else 0
  parent _ := none
  pc _ := .user
  lock _ := none
  wait_lock := none
  nextpid := 2

/-- What is seen of a step: which process takes it, and the results of `allocproc`, `exit`, `wait` and
`kill`. -/
inductive Label
  | silent (p : Slot)
  /-- A CPU picks a process. -/
  | schedules (p : Slot)
  /-- A `wakeup` on something other than a process. -/
  | notifies (p : Slot)
  | kills (p target : Slot) (pid : Int32)
  | allocates (p np : Slot) (pid : Int32)
  | exits (p : Slot) (pid status : Int32)
  | reaps (p child : Slot) (pid status : Int32)
  /-- `wait` returns `-1`; `copyout` failed. -/
  | faults (p : Slot)
  /-- `wait` returns `-1`. -/
  | forsakes (p : Slot)
  deriving DecidableEq

/-- One section. -/
inductive Step (s : Table) : Label → Table → Prop
  -- `scheduler`, `yield`, `forkret` and the end of `sleep`
  | schedule (p : Slot) (free : s.lock p = none) (ready : s.state p = .runnable) :
      Step s (.schedules p) (((s.setState p .running).setChan p none).setPc p (s.pc p).resumed)
  | yield (p : Slot) (runs : s.state p = .running) (here : (s.pc p).Interruptible)
      (free : s.lock p = none) :
      Step s (.silent p) (s.setState p .runnable)
  -- `sleep` and `wakeup` on something other than a process
  | sleep (p : Slot) (n : Nat) (runs : s.state p = .running) (here : s.pc p = .user)
      (free : s.lock p = none) :
      Step s (.silent p) ((s.setState p .sleeping).setChan p (some (.other n)))
  | notify (p : Slot) (n : Nat) (free : s.lock p = none) :
      Step s (.notifies p) (s.wakeup p (some (.other n)))
  -- `kill`, `setkilled`
  | kill (p : Slot) (pid : Int32) (runs : s.state p = .running) (here : s.pc p = .user) :
      Step s (.silent p) (s.setPc p (.kill pid 0))
  | killNext (p : Slot) (pid : Int32) (i : Slot) (runs : s.state p = .running)
      (here : s.pc p = .kill pid i) (free : s.lock i = none) (other : s.pid i ≠ pid) :
      Step s (.silent p) (s.setPc p (.kill pid (i.val + 1)))
  | killFound (p : Slot) (pid : Int32) (i : Slot) (runs : s.state p = .running)
      (here : s.pc p = .kill pid i) (free : s.lock i = none) (found : s.pid i = pid) :
      Step s (.kills p i pid) ((s.kill i).setPc p .user)
  | killNone (p : Slot) (pid : Int32) (i : Nat) (runs : s.state p = .running)
      (here : s.pc p = .kill pid i) (last : NPROC ≤ i) :
      Step s (.silent p) (s.setPc p .user)
  | setkilled (p : Slot) (runs : s.state p = .running) (here : s.pc p = .user)
      (free : s.lock p = none) :
      Step s (.kills p p (s.pid p)) (s.setKilled p)
  -- `fork`
  | fork (p : Slot) (runs : s.state p = .running) (here : s.pc p = .user) :
      Step s (.silent p) (s.setPc p (.fork 0))
  | forkNext (p i : Slot) (runs : s.state p = .running) (here : s.pc p = .fork i)
      (free : s.lock i = none) (busy : s.state i ≠ .unused) :
      Step s (.silent p) (s.setPc p (.fork (i.val + 1)))
  | forkFull (p : Slot) (i : Nat) (runs : s.state p = .running) (here : s.pc p = .fork i)
      (last : NPROC ≤ i) :
      Step s (.silent p) (s.setPc p .user)
  | forkFails (p i : Slot) (runs : s.state p = .running) (here : s.pc p = .fork i)
      (free : s.lock i = none) (unused : s.state i = .unused) :
      Step s (.allocates p i s.nextpid) (((s.alloc i).freeproc i).setPc p .user)
  | forkMakes (p i : Slot) (runs : s.state p = .running) (here : s.pc p = .fork i)
      (free : s.lock i = none) (unused : s.state i = .unused) :
      Step s (.allocates p i s.nextpid) ((s.alloc i).setPc p (.adopt i))
  | adopt (p np : Slot) (runs : s.state p = .running) (here : s.pc p = .adopt np)
      (free : s.wait_lock = none) :
      Step s (.silent p) ((s.setParent np (some p)).setPc p (.start np))
  | start (p np : Slot) (runs : s.state p = .running) (here : s.pc p = .start np)
      (free : s.lock np = none) :
      Step s (.silent p) ((s.setState np .runnable).setPc p .user)
  -- `exit`
  | exit (p : Slot) (status : Int32) (runs : s.state p = .running) (here : s.pc p = .user)
      (mortal : p ≠ initproc) :
      Step s (.silent p) (s.setPc p (.exit status))
  | exitAcquire (p : Slot) (status : Int32) (runs : s.state p = .running)
      (here : s.pc p = .exit status) (free : s.wait_lock = none) :
      Step s (.silent p) ((s.holdWait p).setPc p (.reparent status 0))
  | reparentNext (p : Slot) (status : Int32) (i : Slot) (runs : s.state p = .running)
      (here : s.pc p = .reparent status i) (other : s.parent i ≠ some p) :
      Step s (.silent p) (s.setPc p (.reparent status (i.val + 1)))
  | reparentChild (p : Slot) (status : Int32) (i : Slot) (runs : s.state p = .running)
      (here : s.pc p = .reparent status i) (child : s.parent i = some p) :
      Step s (.silent p) ((s.setParent i (some initproc)).setPc p
        (.wakeup (some (.proc initproc)) 0 (.reparent status (i.val + 1))))
  | reparentEnd (p : Slot) (status : Int32) (i : Nat) (runs : s.state p = .running)
      (here : s.pc p = .reparent status i) (last : NPROC ≤ i) :
      Step s (.silent p) (s.setPc p (.wakeup ((s.parent p).map .proc) 0 (.mark status)))
  | wakeupSelf (p : Slot) (chan : Option Chan) (next : After) (runs : s.state p = .running)
      (here : s.pc p = .wakeup chan p next) :
      Step s (.silent p) (s.setPc p (.wakeup chan (p.val + 1) next))
  | wakeupNext (p : Slot) (chan : Option Chan) (i : Slot) (next : After)
      (runs : s.state p = .running) (here : s.pc p = .wakeup chan i next) (other : i ≠ p)
      (free : s.lock i = none) :
      Step s (.silent p) ((s.wakeup i chan).setPc p (.wakeup chan (i.val + 1) next))
  | wakeupEnd (p : Slot) (chan : Option Chan) (i : Nat) (next : After) (runs : s.state p = .running)
      (here : s.pc p = .wakeup chan i next) (last : NPROC ≤ i) :
      Step s (.silent p) (s.setPc p next.pc)
  | mark (p : Slot) (status : Int32) (runs : s.state p = .running) (here : s.pc p = .mark status)
      (free : s.lock p = none) :
      Step s (.silent p) ((s.hold p).setPc p (.marking status))
  | zombie (p : Slot) (status : Int32) (runs : s.state p = .running)
      (here : s.pc p = .marking status) :
      Step s (.exits p (s.pid p) status)
        (((s.setXstate p status).setState p .zombie).setPc p .marked)
  | exitRelease (p : Slot) (here : s.pc p = .marked) :
      Step s (.silent p) (s.releaseWait.setPc p .leaving)
  | sched (p : Slot) (here : s.pc p = .leaving) :
      Step s (.silent p) ((s.release p).setPc p .dead)
  -- `wait`
  | wait (p : Slot) (runs : s.state p = .running) (here : s.pc p = .user) :
      Step s (.silent p) (s.setPc p .wait)
  | waitAcquire (p : Slot) (runs : s.state p = .running) (here : s.pc p = .wait)
      (free : s.wait_lock = none) :
      Step s (.silent p) ((s.holdWait p).setPc p (.scan 0 false))
  | scanNext (p i : Slot) (havekids : Bool) (runs : s.state p = .running)
      (here : s.pc p = .scan i havekids) (other : s.parent i ≠ some p) :
      Step s (.silent p) (s.setPc p (.scan (i.val + 1) havekids))
  | scanChild (p i : Slot) (havekids : Bool) (runs : s.state p = .running)
      (here : s.pc p = .scan i havekids) (child : s.parent i = some p) (free : s.lock i = none)
      (alive : s.state i ≠ .zombie) :
      Step s (.silent p) (s.setPc p (.scan (i.val + 1) true))
  | reap (p i : Slot) (havekids : Bool) (runs : s.state p = .running)
      (here : s.pc p = .scan i havekids) (child : s.parent i = some p) (free : s.lock i = none)
      (zombie : s.state i = .zombie) :
      Step s (.reaps p i (s.pid i) (s.xstate i)) ((s.freeproc i).releaseWait.setPc p .user)
  | copyoutFails (p i : Slot) (havekids : Bool) (runs : s.state p = .running)
      (here : s.pc p = .scan i havekids) (child : s.parent i = some p) (free : s.lock i = none)
      (zombie : s.state i = .zombie) :
      Step s (.faults p) (s.releaseWait.setPc p .user)
  | childless (p : Slot) (i : Nat) (runs : s.state p = .running) (here : s.pc p = .scan i false)
      (last : NPROC ≤ i) :
      Step s (.forsakes p) (s.releaseWait.setPc p .user)
  | waitKilled (p : Slot) (i : Nat) (runs : s.state p = .running) (here : s.pc p = .scan i true)
      (last : NPROC ≤ i) (free : s.lock p = none) (killed : s.killed p = true) :
      Step s (.forsakes p) (s.releaseWait.setPc p .user)
  | waitSleep (p : Slot) (i : Nat) (runs : s.state p = .running) (here : s.pc p = .scan i true)
      (last : NPROC ≤ i) (free : s.lock p = none) (spared : s.killed p = false) :
      Step s (.silent p) (s.setPc p .sleep)
  | sleepLock (p : Slot) (runs : s.state p = .running) (here : s.pc p = .sleep)
      (free : s.lock p = none) :
      Step s (.silent p) ((s.hold p).setPc p .sleepLocked)
  | sleepRelease (p : Slot) (runs : s.state p = .running) (here : s.pc p = .sleepLocked) :
      Step s (.silent p) (s.releaseWait.setPc p .sleepReleased)
  | sleepSched (p : Slot) (runs : s.state p = .running) (here : s.pc p = .sleepReleased) :
      Step s (.silent p) ((((s.setState p .sleeping).setChan p (some (.proc p))).release p).setPc p
        .asleep)

/-! ### Performing steps -/

/-- One turn of a loop over the process table, or what comes after it. -/
def onSlot {α : Type} (i : Nat) (turn : Slot → α) (last : α) : α :=
  if inside : i < NPROC then turn ⟨i, inside⟩ else last

/-- What is done with a lock, if no one else has it. -/
def unlocked {α : Type} (lock : Option Slot) (x : α) : Option α :=
  if lock = none then some x else none

namespace Table

/-- The next section of a process inside one of the functions. Of `allocproc` and `copyout` it is told
whether they succeed. -/
def go (s : Table) (p : Slot) (succeeds : Bool) : Option (Label × Table) :=
  match s.pc p with
  | .user | .asleep | .dead => none
  | .kill pid i => onSlot i
      (fun q => unlocked (s.lock q) (if s.pid q = pid then (.kills p q pid, (s.kill q).setPc p .user)
        else (.silent p, s.setPc p (.kill pid (i + 1)))))
      (some (.silent p, s.setPc p .user))
  | .fork i => onSlot i
      (fun q => unlocked (s.lock q) (if s.state q = .unused then
          (.allocates p q s.nextpid, if succeeds then (s.alloc q).setPc p (.adopt q)
            else ((s.alloc q).freeproc q).setPc p .user)
        else (.silent p, s.setPc p (.fork (i + 1)))))
      (some (.silent p, s.setPc p .user))
  | .adopt np =>
    unlocked s.wait_lock (.silent p, (s.setParent np (some p)).setPc p (.start np))
  | .start np => unlocked (s.lock np) (.silent p, (s.setState np .runnable).setPc p .user)
  | .exit status =>
    unlocked s.wait_lock (.silent p, (s.holdWait p).setPc p (.reparent status 0))
  | .reparent status i => onSlot i
      (fun q => some (.silent p, if s.parent q = some p then
          (s.setParent q (some initproc)).setPc p
            (.wakeup (some (.proc initproc)) 0 (.reparent status (i + 1)))
        else s.setPc p (.reparent status (i + 1))))
      (some (.silent p, s.setPc p (.wakeup ((s.parent p).map .proc) 0 (.mark status))))
  | .wakeup chan i next => onSlot i
      (fun q => if q = p then some (.silent p, s.setPc p (.wakeup chan (i + 1) next))
        else unlocked (s.lock q) (.silent p, (s.wakeup q chan).setPc p (.wakeup chan (i + 1) next)))
      (some (.silent p, s.setPc p next.pc))
  | .mark status => unlocked (s.lock p) (.silent p, (s.hold p).setPc p (.marking status))
  | .marking status => some (.exits p (s.pid p) status,
      ((s.setXstate p status).setState p .zombie).setPc p .marked)
  | .marked => some (.silent p, s.releaseWait.setPc p .leaving)
  | .leaving => some (.silent p, (s.release p).setPc p .dead)
  | .wait => unlocked s.wait_lock (.silent p, (s.holdWait p).setPc p (.scan 0 false))
  | .scan i havekids => onSlot i
      (fun q => if s.parent q = some p then
          unlocked (s.lock q) (if s.state q = .zombie then
              if succeeds then (.reaps p q (s.pid q) (s.xstate q),
                (s.freeproc q).releaseWait.setPc p .user)
              else (.faults p, s.releaseWait.setPc p .user)
            else (.silent p, s.setPc p (.scan (i + 1) true)))
        else some (.silent p, s.setPc p (.scan (i + 1) havekids)))
      (if havekids then
          unlocked (s.lock p) (if s.killed p then (.forsakes p, s.releaseWait.setPc p .user)
            else (.silent p, s.setPc p .sleep))
        else some (.forsakes p, s.releaseWait.setPc p .user))
  | .sleep => unlocked (s.lock p) (.silent p, (s.hold p).setPc p .sleepLocked)
  | .sleepLocked => some (.silent p, s.releaseWait.setPc p .sleepReleased)
  | .sleepReleased => some (.silent p, (((s.setState p .sleeping).setChan p
      (some (.proc p))).release p).setPc p .asleep)

/-- A process that has exited still runs until it is in the scheduler. -/
def Executes (s : Table) (p : Slot) : Prop :=
  s.state p = .running ∨ s.pc p = .marked ∨ s.pc p = .leaving

instance (s : Table) (p : Slot) : Decidable (s.Executes p) := inferInstanceAs (Decidable (_ ∨ _))

end Table

theorem unlocked_eq_some {α : Type} {lock : Option Slot} {x y : α} :
    unlocked lock x = some y ↔ lock = none ∧ x = y := by
  unfold unlocked
  split <;> simp_all

theorem step_of_go {s s' : Table} {p : Slot} {succeeds : Bool} {label : Label}
    (executes : s.Executes p) (goes : s.go p succeeds = some (label, s')) : Step s label s' := by
  have runs : s.pc p ≠ .marked → s.pc p ≠ .leaving → s.state p = .running := by
    intro marked leaving
    simpa [Table.Executes, marked, leaving] using executes
  unfold Table.go onSlot at goes
  cases place : s.pc p <;> rw [place] at goes runs <;> dsimp only at goes
  case user | asleep | dead => cases goes
  case marked =>
    cases goes
    exact .exitRelease p place
  case leaving =>
    cases goes
    exact .sched p place
  all_goals replace runs := runs Pc.noConfusion Pc.noConfusion
  case kill pid i =>
    split at goes
    · next inside =>
      obtain ⟨free, goes⟩ := unlocked_eq_some.mp goes
      split at goes
      · next found =>
        cases goes
        exact .killFound p pid ⟨i, inside⟩ runs place free found
      · next other =>
        cases goes
        exact .killNext p pid ⟨i, inside⟩ runs place free other
    · next last =>
      cases goes
      exact .killNone p pid i runs place (Nat.not_lt.mp last)
  case fork i =>
    split at goes
    · next inside =>
      obtain ⟨free, goes⟩ := unlocked_eq_some.mp goes
      split at goes
      · next unused =>
        split at goes
        · cases goes
          exact .forkMakes p ⟨i, inside⟩ runs place free unused
        · cases goes
          exact .forkFails p ⟨i, inside⟩ runs place free unused
      · next busy =>
        cases goes
        exact .forkNext p ⟨i, inside⟩ runs place free busy
    · next last =>
      cases goes
      exact .forkFull p i runs place (Nat.not_lt.mp last)
  case adopt np =>
    obtain ⟨free, goes⟩ := unlocked_eq_some.mp goes
    cases goes
    exact .adopt p np runs place free
  case start np =>
    obtain ⟨free, goes⟩ := unlocked_eq_some.mp goes
    cases goes
    exact .start p np runs place free
  case exit status =>
    obtain ⟨free, goes⟩ := unlocked_eq_some.mp goes
    cases goes
    exact .exitAcquire p status runs place free
  case reparent status i =>
    split at goes
    · next inside =>
      split at goes
      · next child =>
        cases goes
        exact .reparentChild p status ⟨i, inside⟩ runs place child
      · next other =>
        cases goes
        exact .reparentNext p status ⟨i, inside⟩ runs place other
    · next last =>
      cases goes
      exact .reparentEnd p status i runs place (Nat.not_lt.mp last)
  case wakeup chan i next =>
    split at goes
    · next inside =>
      split at goes
      · next same =>
        cases goes
        subst same
        exact .wakeupSelf _ chan next runs place
      · next other =>
        obtain ⟨free, goes⟩ := unlocked_eq_some.mp goes
        cases goes
        exact .wakeupNext p chan ⟨i, inside⟩ next runs place other free
    · next last =>
      cases goes
      exact .wakeupEnd p chan i next runs place (Nat.not_lt.mp last)
  case mark status =>
    obtain ⟨free, goes⟩ := unlocked_eq_some.mp goes
    cases goes
    exact .mark p status runs place free
  case marking status =>
    cases goes
    exact .zombie p status runs place
  case wait =>
    obtain ⟨free, goes⟩ := unlocked_eq_some.mp goes
    cases goes
    exact .waitAcquire p runs place free
  case scan i havekids =>
    split at goes
    · next inside =>
      split at goes
      · next child =>
        obtain ⟨free, goes⟩ := unlocked_eq_some.mp goes
        split at goes
        · next zombie =>
          split at goes
          · cases goes
            exact .reap p ⟨i, inside⟩ havekids runs place child free zombie
          · cases goes
            exact .copyoutFails p ⟨i, inside⟩ havekids runs place child free zombie
        · next alive =>
          cases goes
          exact .scanChild p ⟨i, inside⟩ havekids runs place child free alive
      · next other =>
        cases goes
        exact .scanNext p ⟨i, inside⟩ havekids runs place other
    · next last =>
      cases havekids with
      | true =>
        obtain ⟨free, goes⟩ := unlocked_eq_some.mp goes
        split at goes
        · next killed =>
          cases goes
          exact .waitKilled p i runs place (Nat.not_lt.mp last) free killed
        · next spared =>
          cases goes
          exact .waitSleep p i runs place (Nat.not_lt.mp last) free (Bool.eq_false_iff.mpr spared)
      | false =>
        cases goes
        exact .childless p i runs place (Nat.not_lt.mp last)
  case sleep =>
    obtain ⟨free, goes⟩ := unlocked_eq_some.mp goes
    cases goes
    exact .sleepLock p runs place free
  case sleepLocked =>
    cases goes
    exact .sleepRelease p runs place
  case sleepReleased =>
    cases goes
    exact .sleepSched p runs place

/-- A choice of the scheduler, a system call, or the next section of a process. -/
inductive Command
  | schedule (p : Slot)
  | fork (p : Slot)
  | exit (p : Slot) (status : Int32)
  | wait (p : Slot)
  | kill (p : Slot) (pid : Int32)
  | go (p : Slot) (succeeds : Bool)

def Table.perform (s : Table) : Command → Option Table
  | .schedule p =>
    if s.lock p = none ∧ s.state p = .runnable then
      some (((s.setState p .running).setChan p none).setPc p (s.pc p).resumed)
    else none
  | .fork p => if s.state p = .running ∧ s.pc p = .user then some (s.setPc p (.fork 0)) else none
  | .exit p status =>
    if (s.state p = .running ∧ s.pc p = .user) ∧ p ≠ initproc then some (s.setPc p (.exit status))
    else none
  | .wait p => if s.state p = .running ∧ s.pc p = .user then some (s.setPc p .wait) else none
  | .kill p pid =>
    if s.state p = .running ∧ s.pc p = .user then some (s.setPc p (.kill pid 0)) else none
  | .go p succeeds => if s.Executes p then (s.go p succeeds).map Prod.snd else none

theorem step_of_perform {s s' : Table} {command : Command} (performed : s.perform command = some s') :
    ∃ label, Step s label s' := by
  cases command with
  | schedule p =>
    obtain ⟨holds, same⟩ := Option.ite_none_right_eq_some.mp performed
    cases same
    exact ⟨_, .schedule p holds.1 holds.2⟩
  | fork p =>
    obtain ⟨holds, same⟩ := Option.ite_none_right_eq_some.mp performed
    cases same
    exact ⟨_, .fork p holds.1 holds.2⟩
  | exit p status =>
    obtain ⟨holds, same⟩ := Option.ite_none_right_eq_some.mp performed
    cases same
    exact ⟨_, .exit p status holds.1.1 holds.1.2 holds.2⟩
  | wait p =>
    obtain ⟨holds, same⟩ := Option.ite_none_right_eq_some.mp performed
    cases same
    exact ⟨_, .wait p holds.1 holds.2⟩
  | kill p pid =>
    obtain ⟨holds, same⟩ := Option.ite_none_right_eq_some.mp performed
    cases same
    exact ⟨_, .kill p pid holds.1 holds.2⟩
  | go p succeeds =>
    obtain ⟨executes, performed⟩ := Option.ite_none_right_eq_some.mp performed
    obtain ⟨⟨label, s'⟩, goes, rfl⟩ := Option.map_eq_some_iff.mp performed
    exact ⟨label, step_of_go executes goes⟩

/-- Commands that were performed make a run, one step for each. -/
theorem run_of_perform {commands : List Command} {s s' : Table}
    (performed : commands.foldlM Table.perform s = some s') :
    ∃ labels, Run Step s labels s' ∧ labels.length = commands.length := by
  induction commands generalizing s with
  | nil =>
    cases performed
    exact ⟨[], .nil _, rfl⟩
  | cons command rest ih =>
    rw [List.foldlM_cons] at performed
    obtain ⟨middle, first, last⟩ := Option.bind_eq_some_iff.mp performed
    obtain ⟨label, step⟩ := step_of_perform first
    obtain ⟨labels, run, length⟩ := ih last
    exact ⟨label :: labels, .cons step run, congrArg Nat.succ length⟩

theorem exists_run {commands : List Command} {check : Table → Bool}
    (performed : (commands.foldlM Table.perform boot).any check = true) :
    ∃ labels s, Run Step boot labels s ∧ labels.length = commands.length ∧ check s = true := by
  obtain ⟨s, result, checked⟩ := (Option.any_eq_true _ _).mp performed
  obtain ⟨labels, run, length⟩ := run_of_perform result
  exact ⟨labels, s, run, length, checked⟩

/-- The slot after `init`. -/
def firstSlot : Slot := ⟨1, Nat.succ_lt_succ (Nat.zero_lt_succ _)⟩

/-- `init` forks a child and waits for it, and the child exits; `init` goes on until it comes to the
child. -/
def waitForChild : List Command :=
  [.schedule initproc, .fork initproc] ++ List.replicate 4 (.go initproc true) ++
    [.wait initproc, .schedule firstSlot, .exit firstSlot 7] ++
    List.replicate 69 (.go initproc true) ++ List.replicate 135 (.go firstSlot true) ++
    [.schedule initproc, .go initproc true, .go initproc true]

theorem waits_for_child : ∃ labels s, Run Step boot labels s ∧ labels.length = waitForChild.length ∧
    s.state firstSlot = .zombie ∧ s.Executes initproc ∧
      ∃ s', s.go initproc true = some (.reaps initproc firstSlot 2 7, s') := by
  have performed : (waitForChild.foldlM Table.perform boot).any (fun s =>
      decide (s.state firstSlot = .zombie ∧ s.Executes initproc ∧
        (s.go initproc true).map Prod.fst = some (.reaps initproc firstSlot 2 7))) = true := by
    decide +kernel
  obtain ⟨labels, s, run, length, checked⟩ := exists_run performed
  obtain ⟨zombie, executes, goes⟩ := of_decide_eq_true checked
  obtain ⟨⟨label, s'⟩, goes, rfl⟩ := Option.map_eq_some_iff.mp goes
  exact ⟨labels, s, run, length, zombie, executes, s', goes⟩

def secondSlot : Slot := ⟨2, Nat.succ_lt_succ (Nat.succ_lt_succ (Nat.zero_lt_succ _))⟩

/-- The child of `init` forks a child itself, which exits, and goes on until it comes to it in `wait`. -/
def waitForGrandchild : List Command :=
  [.schedule initproc, .fork initproc] ++ List.replicate 4 (.go initproc true) ++
    [.schedule firstSlot, .fork firstSlot] ++ List.replicate 5 (.go firstSlot true) ++
    [.schedule secondSlot, .exit secondSlot 7] ++ List.replicate 135 (.go secondSlot true) ++
    [.wait firstSlot] ++ List.replicate 3 (.go firstSlot true)

theorem waits_for_grandchild : ∃ labels s, Run Step boot labels s ∧ s.Executes firstSlot ∧
    ∃ s', s.go firstSlot true = some (.reaps firstSlot secondSlot 3 7, s') := by
  have performed : (waitForGrandchild.foldlM Table.perform boot).any (fun s =>
      decide (s.Executes firstSlot ∧
        (s.go firstSlot true).map Prod.fst = some (.reaps firstSlot secondSlot 3 7))) = true := by
    decide +kernel
  obtain ⟨labels, s, run, -, checked⟩ := exists_run performed
  obtain ⟨executes, goes⟩ := of_decide_eq_true checked
  obtain ⟨⟨label, s'⟩, goes, rfl⟩ := Option.map_eq_some_iff.mp goes
  exact ⟨labels, s, run, executes, s', goes⟩

end Csc3150.Lifecycle
