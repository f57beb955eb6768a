/-
**The family tree.**

What `fork`, `exit` and `wait` are for: a tree of processes that changes all at once. In the table a call
goes over many slots, and other processes see it half done.

* `rooted` — in the tree every process but `init` has a parent that has not exited;
* `table_refines_tree` — every run of the table is a run of the tree, and the processes that exit and those
  that are collected are the same, in the same order;
* `parents_of_run` — so every process of the table has a living parent, also while its parent exits.
-/

import Csc3150.Library.Refinement
import Csc3150.Lifecycle.Family

namespace Csc3150.Lifecycle

open Mmap (NPROC initproc)
open Transition

/-! ### The tree -/

/-- A process, and its exit status when it has exited. -/
structure Member where
  pid : Int32
  parent : Option Slot
  status : Option Int32

abbrev Tree := Slot → Option Member

namespace Tree

def Lives (t : Tree) (p : Slot) : Prop := ∃ m, t p = some m ∧ m.status = none

def born (t : Tree) (p np : Slot) (pid : Int32) : Tree :=
  Function.update t np (some ⟨pid, some p, none⟩)

/-- The process exits, and `init` takes its children. -/
def exit (t : Tree) (p : Slot) (status : Int32) : Tree := fun q =>
  (t q).map fun m => { m with
    parent := if m.parent = some p then some initproc else m.parent
    status := if q = p then some status else m.status }

def collect (t : Tree) (np : Slot) : Tree := Function.update t np none

inductive Event
  | born (p np : Slot) (pid : Int32)
  | exits (p : Slot) (pid status : Int32)
  | collects (p np : Slot) (pid status : Int32)

inductive Step (t : Tree) : Event → Tree → Prop
  | born (p np : Slot) (pid : Int32) (lives : t.Lives p) (new : t np = none) :
      Step t (.born p np pid) (t.born p np pid)
  | exits (p : Slot) (status : Int32) (m : Member) (member : t p = some m) (lives : m.status = none)
      (mortal : p ≠ initproc) : Step t (.exits p m.pid status) (t.exit p status)
  | collects (p np : Slot) (status : Int32) (m : Member) (lives : t.Lives p) (member : t np = some m)
      (child : m.parent = some p) (exited : m.status = some status) :
      Step t (.collects p np m.pid status) (t.collect np)

/-- `init` lives, and the parent of every other process does. -/
structure Rooted (t : Tree) : Prop where
  init : t.Lives initproc
  parent : ∀ q m, t q = some m → q ≠ initproc → ∃ p, m.parent = some p ∧ t.Lives p

variable {t t' : Tree} {event : Event}

theorem lives_of_update {np q : Slot} {entry : Option Member} (lives : t.Lives q) (other : q ≠ np) :
    Lives (Function.update t np entry) q := by
  obtain ⟨m, member, alive⟩ := lives
  exact ⟨m, by rw [Function.update_of_ne other, member], alive⟩

theorem lives_of_exit {p q : Slot} {status : Int32} (lives : t.Lives q) (other : q ≠ p) :
    (t.exit p status).Lives q := by
  obtain ⟨m, member, alive⟩ := lives
  refine ⟨_, by rw [Tree.exit, member, Option.map_some], ?_⟩
  exact (if_neg other).trans alive

theorem step_rooted (rooted : t.Rooted) (step : Step t event t') : t'.Rooted := by
  have init := rooted.init
  cases step with
  | born p np pid lives new =>
    have other : ∀ {q}, t.Lives q → q ≠ np := by
      rintro q ⟨m, member, -⟩ rfl
      rw [new] at member
      cases member
    refine ⟨lives_of_update init (other init), fun q m member mortal => ?_⟩
    by_cases same : q = np
    · subst same
      rw [Tree.born, Function.update_self] at member
      cases member
      exact ⟨p, rfl, lives_of_update lives (other lives)⟩
    · rw [Tree.born, Function.update_of_ne same] at member
      obtain ⟨r, parent, living⟩ := rooted.parent q m member mortal
      exact ⟨r, parent, lives_of_update living (other living)⟩
  | exits p status m₀ member₀ lives mortal₀ =>
    refine ⟨lives_of_exit init (Ne.symm mortal₀), fun q m member mortal => ?_⟩
    obtain ⟨before, was, rfl⟩ := Option.map_eq_some_iff.mp member
    obtain ⟨r, parent, living⟩ := rooted.parent q before was mortal
    dsimp only
    split
    · exact ⟨initproc, rfl, lives_of_exit init (Ne.symm mortal₀)⟩
    · next differs =>
      refine ⟨r, parent, lives_of_exit living fun same => differs ?_⟩
      rw [parent, same]
  | collects p np status m₀ lives member₀ child exited =>
    have other : ∀ {q}, t.Lives q → q ≠ np := by
      rintro q ⟨m, member, alive⟩ rfl
      cases member.symm.trans member₀
      rw [alive] at exited
      cases exited
    refine ⟨lives_of_update init (other init), fun q m member mortal => ?_⟩
    by_cases same : q = np
    · subst same
      rw [Tree.collect, Function.update_self] at member
      cases member
    · rw [Tree.collect, Function.update_of_ne same] at member
      obtain ⟨r, parent, living⟩ := rooted.parent q m member mortal
      exact ⟨r, parent, lives_of_update living (other living)⟩

end Tree

/-! ### The tree in the table -/

/-- The status of a process that has begun to exit, and is not yet a zombie. -/
def Pc.exits : Pc → Option Int32
  | .reparent status _ | .wakeup _ _ (.reparent status _) | .wakeup _ _ (.mark status) | .mark status
  | .marking status => some status
  | .user | .kill .. | .fork _ | .adopt _ | .start _ | .exit _ | .marked | .leaving | .dead | .wait
  | .scan .. | .sleep | .sleepLocked | .sleepReleased | .asleep => none

namespace Table

variable (s : Table)

def status (q : Slot) : Option Int32 :=
  if s.state q = .zombie then some (s.xstate q) else (s.pc q).exits

/-- The children of a process that has begun to exit are `init`'s. -/
def heir (p : Slot) : Slot := if (s.pc p).exits.isSome then initproc else p

def tree : Tree := fun q =>
  if q = initproc ∨ (s.parent q).isSome then some ⟨s.pid q, (s.parent q).map s.heir, s.status q⟩
  else none

/-- The exit that the tree has seen and the table has not. -/
def ahead : List Label :=
  match s.wait_lock with
  | none => []
  | some p => ((s.pc p).exits.map fun status => .exits p (s.pid p) status).toList

end Table

/-- The exits and the collections of a run. -/
def Label.shows : Label → List Label
  | .exits p pid status => [.exits p pid status]
  | .reaps p np pid status => [.reaps p np pid status]
  | .schedules _ | .silent _ | .notifies _ | .kills .. | .allocates .. | .faults _ | .forsakes _ => []

def Tree.Event.shows : Tree.Event → List Label
  | .born .. => []
  | .exits p pid status => [.exits p pid status]
  | .collects p np pid status => [.reaps p np pid status]

/-! ### Steps that the tree does not see -/

section Keeping

variable {s s' t : Table} {label : Label} {labels : List Label} {p q np : Slot} {pc pc₀ : Pc}

/-- The tree and what it is ahead are the same. -/
structure Table.Same (s t : Table) : Prop where
  tree : t.tree = s.tree
  ahead : t.ahead = s.ahead

theorem heir_congr (exits : ∀ q, (t.pc q).exits = (s.pc q).exits) : t.heir = s.heir :=
  funext fun p => by rw [Table.heir, Table.heir, exits]

theorem status_congr (state : t.state q = s.state q) (xstate : t.xstate q = s.xstate q)
    (exits : (t.pc q).exits = (s.pc q).exits) : t.status q = s.status q := by
  rw [Table.status, Table.status, state, xstate, exits]

theorem tree_congr (heir : t.heir = s.heir) (parent : t.parent q = s.parent q)
    (pid : t.pid q = s.pid q) (status : t.status q = s.status q) : t.tree q = s.tree q := by
  rw [Table.tree, Table.tree, heir, parent, pid, status]

/-- They depend on the parents, the process ids and statuses of the members, and on who is exiting. -/
theorem same_of (parent : t.parent = s.parent)
    (member : ∀ q, q = initproc ∨ (s.parent q).isSome → t.pid q = s.pid q ∧ t.status q = s.status q)
    (exits : ∀ q, (t.pc q).exits = (s.pc q).exits) (ahead : t.ahead = s.ahead) : s.Same t := by
  refine ⟨?_, ahead⟩
  funext q
  rw [Table.tree, Table.tree, parent, heir_congr exits]
  split
  · next is => rw [(member q is).1, (member q is).2]
  · rfl

theorem pending_of_lock (wait : t.wait_lock = s.wait_lock)
    (exits : ∀ q, (t.pc q).exits = (s.pc q).exits)
    (pid : ∀ q, (s.pc q).exits ≠ none → t.pid q = s.pid q) : t.ahead = s.ahead := by
  rw [Table.ahead, Table.ahead, wait]
  split
  · rfl
  · next p _ =>
    rw [exits]
    cases leaving : (s.pc p).exits with
    | none => rfl
    | some status => rw [pid p (by simp [leaving])]

theorem pending_of_exits (exits : ∀ p, s.wait_lock = some p → (s.pc p).exits = none) :
    s.ahead = [] := by
  rw [Table.ahead]
  split
  · rfl
  · next p holds => rw [exits p holds]; rfl

/-- A step that changes no process id, parent or exit status. -/
theorem same_of_zombie (parent : t.parent = s.parent) (pid : t.pid = s.pid) (xstate : t.xstate = s.xstate)
    (zombie : ∀ q, t.state q = .zombie ↔ s.state q = .zombie)
    (exits : ∀ q, (t.pc q).exits = (s.pc q).exits) (ahead : t.ahead = s.ahead) : s.Same t := by
  refine same_of parent (fun q _ => ⟨congrFun pid q, ?_⟩) exits ahead
  simp only [Table.status, zombie, xstate, exits]

theorem exits_setPc (here : s.pc p = pc₀) (others : t.pc = s.pc) (same : pc.exits = pc₀.exits) :
    ∀ q, ((t.setPc p pc).pc q).exits = (s.pc q).exits := by
  intro q
  by_cases it : q = p
  · subst it
    simp [same, here]
  · simp [it, others]

/-- A process moves on, with or without a lock of a process. -/
theorem same_setPc (here : s.pc p = pc₀) (same : pc.exits = pc₀.exits) (others : t.pc = s.pc)
    (parent : t.parent = s.parent) (pid : t.pid = s.pid) (xstate : t.xstate = s.xstate)
    (zombie : ∀ q, t.state q = .zombie ↔ s.state q = .zombie) (wait : t.wait_lock = s.wait_lock) :
    s.Same (t.setPc p pc) := by
  have exits := exits_setPc here others same
  exact same_of_zombie parent pid xstate zombie exits
    (pending_of_lock wait exits fun q _ => congrFun pid q)

/-- A process that is not exiting takes or gives back `wait_lock`. -/
theorem same_setWait (here : s.pc p = pc₀) (stays : pc₀.exits = none) (goes : pc.exits = none)
    (others : t.pc = s.pc) (parent : t.parent = s.parent) (pid : t.pid = s.pid)
    (xstate : t.xstate = s.xstate) (zombie : ∀ q, t.state q = .zombie ↔ s.state q = .zombie)
    (before : s.wait_lock = none ∨ s.wait_lock = some p)
    (after : t.wait_lock = none ∨ t.wait_lock = some p) : s.Same (t.setPc p pc) := by
  have exits := exits_setPc here others (goes.trans stays.symm)
  refine same_of_zombie parent pid xstate zombie exits ?_
  rw [pending_of_exits, pending_of_exits]
  · intro q holds
    rcases before with free | own
    · rw [free] at holds
      cases holds
    · cases own.symm.trans holds
      rw [here, stays]
  · intro q holds
    change t.wait_lock = some q at holds
    rcases after with free | own
    · rw [free] at holds
      cases holds
    · cases own.symm.trans holds
      simp [goes]

theorem zombie_setState {state : ProcState} (before : s.state p ≠ .zombie) (after : state ≠ .zombie) :
    ∀ q, (s.setState p state).state q = .zombie ↔ s.state q = .zombie := by
  intro q
  by_cases same : q = p
  · subst same
    simp [before, after]
  · simp [same]

theorem zombie_rouse (cond : Prop) [Decidable cond] : ∀ q,
    (s.setState p (if s.state p = .sleeping ∧ cond then .runnable else s.state p)).state q = .zombie ↔
      s.state q = .zombie := by
  intro q
  by_cases same : q = p
  · subst same
    simp only [Table.setState, if_true]
    split
    · next asleep => simp [asleep.1]
    · rfl
  · simp [same]

end Keeping

/-! ### Steps -/

section Steps

variable {s s' t : Table} {label : Label} {labels : List Label} {p q np : Slot} {pc pc₀ : Pc}

/-- The tree takes some steps for a step of the table. -/
def Table.Follows (s : Table) (label : Label) (s' : Table) : Prop :=
  ∃ events, Run Tree.Step s.tree events s'.tree ∧
    s.ahead ++ events.flatMap Tree.Event.shows = label.shows ++ s'.ahead

theorem Table.Same.follows (same : s.Same t) (silent : label.shows = []) : s.Follows label t :=
  ⟨[], same.tree ▸ .nil _, by rw [silent, same.ahead]; simp⟩

theorem Table.Follows.one {event : Tree.Event} {tree : Tree} (becomes : s'.tree = tree)
    (step : Tree.Step s.tree event tree)
    (same : s.ahead ++ event.shows = label.shows ++ s'.ahead) : s.Follows label s' :=
  ⟨[event], .cons (becomes ▸ step) (.nil _), by simpa using same⟩

/-- A process that does not run is not exiting. -/
theorem exits_of_idle (sound : s.Sound) (idle : ¬ s.Up q) : (s.pc q).exits = none := by
  rcases (sound.at_place q).idle idle with here | here | here | here | here <;> rw [here] <;> rfl

theorem lives_of_runs (sound : s.Sound) (runs : s.state p = .running) (stays : (s.pc p).exits = none) :
    s.tree.Lives p := by
  have member : p = initproc ∨ (s.parent p).isSome := by
    by_cases same : p = initproc
    · exact Or.inl same
    · exact Or.inr (Option.isSome_iff_ne_none.mpr
        (sound.parented p same (Or.inl (Or.inr (Or.inr runs)))))
  refine ⟨_, if_pos member, ?_⟩
  simp [Table.status, runs, stays]

/-- `allocproc` takes a slot that is not in the tree. -/
theorem same_alloc (sound : s.Sound) (here : s.pc p = pc₀) (stays : pc.exits = pc₀.exits)
    (unused : s.state np = .unused) (parent : t.parent = s.parent)
    (others : ∀ q, q ≠ np → t.state q = s.state q ∧ t.pid q = s.pid q ∧ t.xstate q = s.xstate q ∧
      t.pc q = s.pc q) (place : t.pc np = .user) (wait : t.wait_lock = s.wait_lock) :
    s.Same (t.setPc p pc) := by
  have idle : (s.pc np).exits = none := exits_of_idle sound fun up => up.alive.1 unused
  have exits : ∀ q, ((t.setPc p pc).pc q).exits = (s.pc q).exits := by
    intro q
    by_cases it : q = p
    · subst it
      simp [stays, here]
    · by_cases new : q = np
      · subst new
        have there : (t.setPc p pc).pc q = .user := by simp [it, place]
        rw [there, idle]
        rfl
      · simp [it, (others q new).2.2.2]
  have outside : ∀ q, q = initproc ∨ (s.parent q).isSome → q ≠ np := by
    rintro q member rfl
    rcases member with rfl | parented
    · have alive := sound.init
      simp [Table.Alive, unused] at alive
    · rw [sound.orphan q unused] at parented
      cases parented
  refine same_of parent (fun q member => ?_) exits (pending_of_lock wait exits fun q leaving => ?_)
  · obtain ⟨state, pid, xstate, -⟩ := others q (outside q member)
    exact ⟨pid, status_congr state xstate (exits q)⟩
  · refine (others q ?_).2.1
    rintro rfl
    exact leaving idle

theorem follows_adopt (sound : s.Sound) (runs : s.state p = .running) (here : s.pc p = .adopt np)
    (orphan : s.parent np = none) :
    s.Follows (.silent p) ((s.setParent np (some p)).setPc p (.start np)) := by
  have used : s.state np = .used := (sound.at_place p).used (by rw [here]; rfl)
  have fresh : (s.pc np).exits = none := exits_of_idle sound fun up => up.alive.2.1 used
  have other : np ≠ initproc := by
    rintro rfl
    have alive := sound.init
    simp [Table.Alive, used] at alive
  have exits : ∀ q, (((s.setParent np (some p)).setPc p (.start np)).pc q).exits = (s.pc q).exits :=
    exits_setPc here rfl rfl
  have own : s.heir p = p := by rw [Table.heir, here]; rfl
  have made : ((s.setParent np (some p)).setPc p (.start np)).tree = s.tree.born p np (s.pid np) := by
    funext q
    by_cases same : q = np
    · subst same
      rw [Tree.born, Function.update_self, Table.tree, heir_congr exits, Table.status, exits]
      simp [own, fresh, used]
    · rw [Tree.born, Function.update_of_ne same]
      exact tree_congr (heir_congr exits) (if_neg same) rfl (status_congr rfl rfl (exits q))
  have new : s.tree np = none := if_neg (by simp [other, orphan])
  have lives : s.tree.Lives p := lives_of_runs sound runs (by rw [here]; rfl)
  refine .one made (.born p np (s.pid np) lives new) ?_
  have ahead : ((s.setParent np (some p)).setPc p (.start np)).ahead = s.ahead :=
    pending_of_lock rfl exits fun _ _ => rfl
  rw [ahead]
  simp [Tree.Event.shows, Label.shows]

theorem follows_exit {status : Int32} (sound : s.Sound) (runs : s.state p = .running)
    (here : s.pc p = .exit status) (free : s.wait_lock = none) :
    s.Follows (.silent p) ((s.holdWait p).setPc p (.reparent status 0)) := by
  have mortal : p ≠ initproc := by
    have there := sound.at_place p
    rw [here] at there
    exact there.2
  have stays : (s.pc p).exits = none := by rw [here]; rfl
  have own : s.heir p = p := by rw [Table.heir, stays]; rfl
  have left : ((s.holdWait p).setPc p (.reparent status 0)).tree = s.tree.exit p status := by
    funext q
    simp only [Tree.exit, Table.tree]
    change (if q = initproc ∨ (s.parent q).isSome then _ else _) = _
    split
    · have status' : ((s.holdWait p).setPc p (.reparent status 0)).status q =
          if q = p then some status else s.status q := by
        by_cases same : q = p
        · subst same
          simp [Table.status, runs, Pc.exits]
        · simp [Table.status, same]
      have heir : (s.parent q).map ((s.holdWait p).setPc p (.reparent status 0)).heir =
          if (s.parent q).map s.heir = some p then some initproc else (s.parent q).map s.heir := by
        cases parent : s.parent q with
        | none => rfl
        | some r =>
          by_cases same : r = p
          · subst same
            rw [Option.map_some, Option.map_some, own, if_pos rfl]
            simp [Table.heir, Pc.exits]
          · have kept : ((s.holdWait p).setPc p (.reparent status 0)).heir r = s.heir r := by
              simp [Table.heir, same]
            have differs : s.heir r ≠ p := by
              rw [Table.heir]
              split
              · exact Ne.symm mortal
              · exact same
            rw [Option.map_some, Option.map_some, kept, if_neg fun is => differs (Option.some.inj is)]
      simp only [Option.map_some]
      rw [← status', ← heir]
      rfl
    · rfl
  obtain ⟨m, member, lives⟩ := lives_of_runs sound runs stays
  have pid : m.pid = s.pid p := by
    rw [Table.tree] at member
    split at member <;> cases member
    rfl
  refine .one left (.exits p status m member lives mortal) ?_
  rw [pid, pending_of_exits (s := s) (fun r holds => by rw [free] at holds; cases holds)]
  simp [Tree.Event.shows, Label.shows, Table.ahead, Pc.exits]

theorem follows_reap {havekids : Bool} (sound : s.Sound) (runs : s.state p = .running)
    (here : s.pc p = .scan q.val havekids) (child : s.parent q = some p)
    (zombie : s.state q = .zombie) :
    s.Follows (.reaps p q (s.pid q) (s.xstate q)) ((s.freeproc q).releaseWait.setPc p .user) := by
  have other : q ≠ initproc := by
    rintro rfl
    have alive := sound.init
    simp [Table.Alive, zombie] at alive
  have stays : (s.pc p).exits = none := by rw [here]; rfl
  have exits : ∀ r, (((s.freeproc q).releaseWait.setPc p .user).pc r).exits = (s.pc r).exits :=
    exits_setPc here rfl rfl
  have own : s.heir p = p := by rw [Table.heir, stays]; rfl
  have gone : ((s.freeproc q).releaseWait.setPc p .user).tree = s.tree.collect q := by
    funext r
    by_cases same : r = q
    · subst same
      rw [Tree.collect, Function.update_self]
      exact if_neg (by simp [other])
    · rw [Tree.collect, Function.update_of_ne same]
      exact tree_congr (heir_congr exits) (if_neg same) (if_neg same)
        (status_congr (if_neg same) (if_neg same) (exits r))
  have member : s.tree q = some ⟨s.pid q, some p, some (s.xstate q)⟩ := by
    rw [Table.tree, if_pos (Or.inr (by rw [child]; rfl)), child, Option.map_some, own, Table.status,
      if_pos zombie]
  refine .one gone (.collects p q (s.xstate q) _ (lives_of_runs sound runs stays) member rfl rfl) ?_
  have there := sound.at_place p
  rw [here] at there
  rw [pending_of_exits (s := s)]
  · rfl
  · intro r holds
    cases there.2.1.symm.trans holds
    exact stays

theorem follows_zombie {status : Int32} (sound : s.Sound) (runs : s.state p = .running)
    (here : s.pc p = .marking status) : s.Follows (.exits p (s.pid p) status)
      (((s.setXstate p status).setState p .zombie).setPc p .marked) := by
  have there := sound.at_place p
  rw [here] at there
  obtain ⟨⟨-, -, wait⟩, childless, -⟩ := there
  have tree : (((s.setXstate p status).setState p .zombie).setPc p .marked).tree = s.tree := by
    funext q
    have heir : (s.parent q).map (((s.setXstate p status).setState p .zombie).setPc p .marked).heir =
        (s.parent q).map s.heir := by
      cases parent : s.parent q with
      | none => rfl
      | some r =>
        have other : r ≠ p := by
          rintro rfl
          exact childless q q.isLt parent
        simp [Table.heir, other]
    have status' : (((s.setXstate p status).setState p .zombie).setPc p .marked).status q =
        s.status q := by
      by_cases same : q = p
      · subst same
        simp [Table.status, here, runs, Pc.exits]
      · simp [Table.status, same]
    rw [Table.tree, status']
    change (if q = initproc ∨ (s.parent q).isSome then some (Member.mk (s.pid q) ((s.parent q).map _) _)
      else none) = _
    rw [heir]
    rfl
  refine ⟨[], by rw [tree]; exact .nil _, ?_⟩
  have before : s.ahead = [.exits p (s.pid p) status] := by
    rw [Table.ahead, wait]
    dsimp only
    rw [here]
    rfl
  rw [before, pending_of_exits]
  · rfl
  · intro r holds
    cases wait.symm.trans holds
    simp [Pc.exits]

theorem follows_reparent {status : Int32} (here : s.pc p = .reparent status q.val)
    (child : s.parent q = some p) : s.Follows (.silent p) ((s.setParent q (some initproc)).setPc p
      (.wakeup (some (.proc initproc)) 0 (.reparent status (q.val + 1)))) := by
  have exits : ∀ r, (((s.setParent q (some initproc)).setPc p
      (.wakeup (some (.proc initproc)) 0 (.reparent status (q.val + 1)))).pc r).exits =
        (s.pc r).exits := exits_setPc here rfl rfl
  have own : s.heir p = initproc := by rw [Table.heir, here]; rfl
  have init : s.heir initproc = initproc := ite_self _
  refine Table.Same.follows ⟨?_, pending_of_lock rfl exits fun _ _ => rfl⟩ rfl
  funext r
  by_cases same : r = q
  · subst same
    have status' : ((s.setParent r (some initproc)).setPc p
        (.wakeup (some (.proc initproc)) 0 (.reparent status (r.val + 1)))).status r = s.status r :=
      status_congr rfl rfl (exits r)
    rw [Table.tree, Table.tree, heir_congr exits, status']
    simp [child, own, init]
  · exact tree_congr (heir_congr exits) (if_neg same) rfl (status_congr rfl rfl (exits r))

/-- A process is about to adopt a child that it has just allocated. -/
theorem step_adopts (step : Step s label s') (place : s'.pc p = .adopt np) :
    s.pc p = .adopt np ∨ s.state np = .unused ∧ s'.parent np = s.parent np := by
  cases step with
  | schedule r free ready =>
    refine Or.inl ?_
    by_cases same : p = r
    · subst same
      exact Pc.eq_of_resumed (by simpa using place) Pc.noConfusion
    · simpa [same] using place
  | yield | sleep | notify | setkilled => exact Or.inl place
  | forkFails r i runs here free unused =>
    have before := Table.pc_of_other place Pc.noConfusion
    by_cases same : p = i
    · simp [same] at before
    · exact Or.inl (by simpa [same] using before)
  | forkMakes r i runs here free unused =>
    by_cases same : p = r
    · subst same
      obtain rfl : i = np := by simpa using place
      exact Or.inr ⟨unused, rfl⟩
    · by_cases new : p = i
      · subst new
        simp [same] at place
      · exact Or.inl (by simpa [same, new] using place)
  | wakeupEnd r chan i next runs here last =>
    exact Or.inl (Table.pc_of_other place (by cases next <;> exact Pc.noConfusion))
  | _ => exact Or.inl (Table.pc_of_other place Pc.noConfusion)

/-- A child that is about to be adopted has no parent. -/
def Table.Unborn (s : Table) : Prop := ∀ p np, s.pc p = .adopt np → s.parent np = none

theorem step_unborn (sound : s.Sound) (unborn : s.Unborn) (step : Step s label s') : s'.Unborn := by
  intro p np place
  have before : s.parent np = none ∧ (s.pc p = .adopt np ∨ s'.parent np = s.parent np) := by
    rcases step_adopts step place with old | ⟨unused, same⟩
    · exact ⟨unborn p np old, Or.inl old⟩
    · exact ⟨sound.orphan np unused, Or.inr same⟩
  obtain ⟨orphan, old | same⟩ := before
  · cases Table.step_inherits step np with
    | stays same => rw [same, orphan]
    | adopted r there parent next =>
      obtain rfl : r = p := sound.unique r p np (by rw [there]; rfl) (by rw [old]; rfl)
      rw [place] at next
      cases next
    | inherited r status there before => rw [orphan] at before; cases before
    | cleared unused parent => exact parent
  · rw [same, orphan]

theorem step_follows (sound : s.Sound) (unborn : s.Unborn) (step : Step s label s') :
    s.Follows label s' := by
  have untouched : ∀ q, s.state q = .zombie ↔ s.state q = .zombie := fun _ => Iff.rfl
  have place := sound.at_place
  cases step with
  | schedule p free ready =>
    have before : s.state p ≠ .zombie := by simp [ready]
    refine Table.Same.follows (same_setPc rfl ?_ rfl rfl rfl rfl
      (zombie_setState before (by simp)) rfl) rfl
    cases s.pc p <;> rfl
  | yield p runs here free | sleep p n runs here free =>
    have before : s.state p ≠ .zombie := by simp [runs]
    exact Table.Same.follows (same_of_zombie rfl rfl rfl (zombie_setState before (by simp))
      (fun _ => rfl) rfl) rfl
  | notify p n free =>
    exact Table.Same.follows (same_of_zombie rfl rfl rfl (zombie_rouse _) (fun _ => rfl) rfl) rfl
  | setkilled p runs here free =>
    exact Table.Same.follows (same_of_zombie rfl rfl rfl untouched (fun _ => rfl) rfl) rfl
  | killFound p pid i runs here free found =>
    have zombie := zombie_rouse (s := s) (p := i) True
    simp only [and_true] at zombie
    refine Table.Same.follows ?_ rfl
    exact same_setPc here rfl rfl rfl rfl rfl zombie rfl
  | forkFails p i runs here free unused =>
    have orphan : ((s.alloc i).freeproc i).parent = s.parent := by
      funext q
      by_cases same : q = i
      · simp [same, sound.orphan i unused]
      · simp [same]
    refine Table.Same.follows ?_ rfl
    exact same_alloc sound here rfl unused orphan
      (fun q differs => ⟨by simp [differs], by simp [differs], by simp [differs], by simp [differs]⟩)
      (by simp) rfl
  | forkMakes p i runs here free unused =>
    refine Table.Same.follows ?_ rfl
    exact same_alloc sound here rfl unused rfl
      (fun q differs => ⟨by simp [differs], by simp [differs], rfl, by simp [differs]⟩)
      (by simp) rfl
  | adopt p np runs here free => exact follows_adopt sound runs here (unborn p np here)
  | start p np runs here free =>
    have used : s.state np = .used := (place p).used (by rw [here]; rfl)
    have before : s.state np ≠ .zombie := by simp [used]
    refine Table.Same.follows ?_ rfl
    exact same_setPc here rfl rfl rfl rfl rfl (zombie_setState before (by simp)) rfl
  | exitAcquire p status runs here free => exact follows_exit sound runs here free
  | reparentChild p status i runs here child => exact follows_reparent here child
  | wakeupNext p chan i next runs here other free =>
    refine Table.Same.follows ?_ rfl
    exact same_setPc here (by cases next <;> rfl) rfl rfl rfl rfl (zombie_rouse _) rfl
  | wakeupSelf p chan next runs here | wakeupEnd p chan i next runs here last =>
    refine Table.Same.follows ?_ rfl
    refine same_setPc here ?_ rfl rfl rfl rfl untouched rfl
    cases next <;> rfl
  | zombie p status runs here => exact follows_zombie sound runs here
  | reap p i havekids runs here child free zombie => exact follows_reap sound runs here child zombie
  | sleepSched p runs here =>
    have before : s.state p ≠ .zombie := by simp [runs]
    refine Table.Same.follows ?_ rfl
    exact same_setPc here rfl rfl rfl rfl rfl (zombie_setState before (by simp)) rfl
  | waitAcquire p runs here free =>
    refine Table.Same.follows ?_ rfl
    exact same_setWait here rfl rfl rfl rfl rfl rfl untouched (Or.inl free) (Or.inr rfl)
  | copyoutFails p i havekids runs here =>
    have there := place p
    rw [here] at there
    refine Table.Same.follows ?_ rfl
    exact same_setWait here rfl rfl rfl rfl rfl rfl untouched (Or.inr there.2.1) (Or.inl rfl)
  | exitRelease | childless | waitKilled | sleepRelease =>
    have here := ‹s.pc _ = _›
    have there := place ‹Slot›
    refine Table.Same.follows ?_ rfl
    rw [here] at there
    exact same_setWait here rfl rfl rfl rfl rfl rfl untouched (Or.inr there.2.1) (Or.inl rfl)
  | _ =>
    have here := ‹s.pc _ = _›
    refine Table.Same.follows ?_ rfl
    exact same_setPc here rfl rfl rfl rfl rfl untouched rfl

end Steps

/-! ### Runs -/

variable {s : Table} {labels : List Label}

theorem boot_rooted : boot.tree.Rooted where
  init := ⟨_, if_pos (Or.inl rfl), rfl⟩
  parent q m member mortal := by
    rw [Table.tree, if_neg (by simp [mortal, boot])] at member
    cases member

/-- **The table refines the tree.** -/
theorem table_refines_tree (run : Run Step boot labels s) : ∃ events,
    Run Tree.Step boot.tree events s.tree ∧
      events.flatMap Tree.Event.shows = labels.flatMap Label.shows ++ s.ahead := by
  have preserved : ∀ s label s', s.Sound ∧ s.Unborn → Step s label s' → s'.Sound ∧ s'.Unborn :=
    fun _ _ _ ⟨sound, unborn⟩ step =>
      ⟨Table.step_sound sound step, step_unborn sound unborn step⟩
  have booted : boot.Unborn := fun _ _ place => by cases place
  obtain ⟨events, mirrored, same⟩ := run.refine preserved
    (fun _ _ _ ⟨sound, unborn⟩ step => step_follows sound unborn step) ⟨boot_sound, booted⟩
  exact ⟨events, mirrored, same⟩

/-- **A living parent.** In every reachable state of the table every process that was started, except
`init`, has a parent in the tree that has not begun to exit. -/
theorem parents_of_run (run : Run Step boot labels s) : s.tree.Rooted := by
  obtain ⟨events, mirrored, -⟩ := table_refines_tree run
  exact mirrored.invariant (fun _ _ _ => Tree.step_rooted) boot_rooted

theorem table_refines_tree_of_child : ∃ labels s events, Run Step boot labels s ∧
    s.state firstSlot = .zombie ∧ Run Tree.Step boot.tree events s.tree ∧
      events.flatMap Tree.Event.shows = labels.flatMap Label.shows ++ s.ahead := by
  obtain ⟨labels, s, run, -, zombie, -⟩ := waits_for_child
  obtain ⟨events, mirrored, same⟩ := table_refines_tree run
  exact ⟨labels, s, events, run, zombie, mirrored, same⟩

theorem parents_of_run_of_child : ∃ labels s, Run Step boot labels s ∧
    s.state firstSlot = .zombie ∧ s.tree.Rooted := by
  obtain ⟨labels, s, run, -, zombie, -⟩ := waits_for_child
  exact ⟨labels, s, run, zombie, parents_of_run run⟩

end Csc3150.Lifecycle
