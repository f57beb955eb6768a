/-
**What `wait` returns.**

* `statuses_delivered` — for every slot, what `exit` left there is what `wait` returned, in the same
  order, and at most the last is still in the slot;
* `reaped_by_family` — to the process that forked it, or to `init`;
* `wait_answers` — `wait` frees a process that has left its kernel stack, and gives up only without
  children or when killed;
* `pids_distinct`, `descends_from_init` — as long as the process ids do not wrap around.
-/

import Csc3150.Lifecycle.Family
import Mathlib.Data.List.Basic

namespace Csc3150.Lifecycle

open Mmap (NPROC initproc)
open Transition

/-! ### Exit statuses -/

/-- The process id and status with which a process of a slot exits in a step. -/
def Label.exited (q : Slot) : Label → Option (Int32 × Int32)
  | .exits p pid status => if p = q then some (pid, status) else none
  | _ => none

/-- The process id and status that `wait` returns in a step for the process of a slot. -/
def Label.collected (q : Slot) : Label → Option (Int32 × Int32)
  | .reaps _ child pid status => if child = q then some (pid, status) else none
  | _ => none

/-- What a slot keeps for `wait`. -/
def Table.pending (s : Table) (q : Slot) : List (Int32 × Int32) :=
  if s.state q = .zombie then [(s.pid q, s.xstate q)] else []

variable {s s' : Table} {label : Label} {labels : List Label} {p q : Slot}

theorem Table.pending_of_ne (alive : s.state q ≠ .zombie) : s.pending q = [] := if_neg alive

theorem pending_step (sound : s.Sound) (step : Step s label s') :
    s.pending q ++ (label.exited q).toList = (label.collected q).toList ++ s'.pending q := by
  cases step with
  | zombie p status runs here =>
    by_cases same : q = p
    · subst same
      simp [Table.pending, Label.exited, Label.collected, runs]
    · simp [Table.pending, Label.exited, Label.collected, same, Ne.symm same]
  | reap p i havekids runs here child free zombie =>
    by_cases same : q = i
    · subst same
      simp [Table.pending, Label.exited, Label.collected, zombie]
    · simp [Table.pending, Label.exited, Label.collected, same, Ne.symm same]
  | schedule p free asleep =>
    by_cases same : q = p <;> simp [Table.pending, Label.exited, Label.collected, same, asleep]
  | forkFails p i runs here free unused | forkMakes p i runs here free unused =>
    by_cases same : q = i <;> simp [Table.pending, Label.exited, Label.collected, same, unused]
  | yield p runs here free | sleep p n runs here free | sleepSched p runs here =>
    by_cases same : q = p <;> simp [Table.pending, Label.exited, Label.collected, same, runs]
  | start p np runs here free =>
    have used : s.state np = .used := (sound.at_place p).used (by rw [here]; rfl)
    by_cases same : q = np <;> simp [Table.pending, Label.exited, Label.collected, same, used]
  | notify | killFound | wakeupNext =>
    simp [Table.pending, Label.exited, Label.collected]
    grind
  | _ => exact List.append_nil _

/-- The exits of a slot in a run. -/
def exited (q : Slot) (labels : List Label) : List (Int32 × Int32) :=
  labels.filterMap (Label.exited q)

/-- What `wait` returned for a slot in a run. -/
def collected (q : Slot) (labels : List Label) : List (Int32 × Int32) :=
  labels.filterMap (Label.collected q)

theorem filterMap_cons_toList {α β : Type} (f : α → Option β) (a : α) (rest : List α) :
    (a :: rest).filterMap f = (f a).toList ++ rest.filterMap f := by
  cases seen : f a <;> simp [seen]

theorem exited_cons (rest : List Label) :
    exited q (label :: rest) = (label.exited q).toList ++ exited q rest :=
  filterMap_cons_toList _ label rest

theorem collected_cons (rest : List Label) :
    collected q (label :: rest) = (label.collected q).toList ++ collected q rest :=
  filterMap_cons_toList _ label rest

theorem pending_run (sound : s.Sound) (run : Run Step s labels s') :
    s.pending q ++ exited q labels = collected q labels ++ s'.pending q := by
  induction run with
  | nil s => exact List.append_nil _
  | @cons s middle s' label rest first _ ih =>
    have later := ih (Table.step_sound sound first)
    calc s.pending q ++ exited q (label :: rest)
        = s.pending q ++ (label.exited q).toList ++ exited q rest := by
          rw [exited_cons, List.append_assoc]
      _ = (label.collected q).toList ++ (middle.pending q ++ exited q rest) := by
          rw [pending_step sound first, List.append_assoc]
      _ = collected q (label :: rest) ++ s'.pending q := by
          rw [later, collected_cons, List.append_assoc]

/-- **Every exit status is delivered once.** For every slot, the process ids and statuses that were left
there by `exit` are those that `wait` returned, in the same order, and then the one that is still there
when the process of the slot has exited. -/
theorem statuses_delivered (run : Run Step boot labels s) (q : Slot) :
    exited q labels = collected q labels ++ s.pending q := by
  have booted : boot.state q ≠ .zombie := by
    simp only [boot]
    split <;> exact ProcState.noConfusion
  rw [← pending_run boot_sound run, Table.pending_of_ne booted, List.nil_append]

theorem statuses_delivered_of_child : ∃ labels s, Run Step boot labels s ∧
    exited firstSlot labels = collected firstSlot labels ++ [(s.pid firstSlot, s.xstate firstSlot)] := by
  obtain ⟨labels, s, run, -, zombie, -⟩ := waits_for_child
  refine ⟨labels, s, run, (statuses_delivered run firstSlot).trans ?_⟩
  rw [Table.pending, if_pos zombie]

/-! ### The answers of `wait` -/

/-- **What the answer of `wait` means.** A process that is freed was a child of the caller and has left
its kernel stack; without a status `wait` returns only when the caller was killed or has no children,
or when `copyout` failed for a child that stays. -/
theorem wait_answers (run : Run Step boot labels s) (step : Step s label s') :
    (∀ p child pid status, label = .reaps p child pid status → s.parent child = some p ∧
      s.pc child = .dead ∧ s.pid child = pid ∧ s.xstate child = status) ∧
    (∀ p, label = .forsakes p → s.killed p = true ∨ ∀ q, s.parent q ≠ some p) ∧
    ∀ p, label = .faults p → ∃ q, s.parent q = some p ∧ s'.state q = .zombie := by
  have sound := sound_of_run run
  refine ⟨?_, ?_, ?_⟩
  · rintro p child pid status rfl
    cases step with
    | reap _ _ havekids runs here parent free zombie =>
      have there := sound.at_place child
      refine ⟨parent, ?_, rfl, rfl⟩
      rcases there.idle (fun up => up.alive.2.2 zombie) with place | place | place | place | place
      · rw [place] at there
        exact absurd zombie there.1
      · rw [place] at there
        simp [Table.At, zombie] at there
      · rw [place] at there
        exact absurd (free.symm.trans there.2.2) (Option.some_ne_none _).symm
      · rw [place] at there
        exact absurd (free.symm.trans there.2) (Option.some_ne_none _).symm
      · exact place
  · rintro p rfl
    cases step with
    | childless _ i runs here last =>
      have there := sound.at_place p
      rw [here] at there
      refine Or.inr fun q parent => ?_
      exact absurd (there.2.2.2.mpr ⟨q, Nat.lt_of_lt_of_le q.isLt last, parent⟩) Bool.false_ne_true
    | waitKilled _ i runs here last free killed => exact Or.inl killed
  · rintro p rfl
    cases step with
    | copyoutFails _ i havekids runs here child free zombie => exact ⟨i, child, zombie⟩

theorem wait_answers_of_child : ∃ labels s, Run Step boot labels s ∧ s.parent firstSlot = some initproc ∧
    s.pc firstSlot = .dead ∧ s.pid firstSlot = 2 ∧ s.xstate firstSlot = 7 := by
  obtain ⟨labels, s, run, -, -, executes, s', goes⟩ := waits_for_child
  exact ⟨labels, s, run,
    (wait_answers run (step_of_go executes goes)).1 initproc firstSlot 2 7 rfl⟩

/-! ### Who forked whom -/

/-- The last `fork` that took each slot, and the process id it gave. -/
abbrev Origin := Slot → Option (Slot × Int32)

def Origin.next (origin : Origin) : Label → Origin
  | .allocates p np pid => fun q => if q = np then some (p, pid) else origin q
  | _ => origin

/-- Who forked whom in a run. -/
def origin (labels : List Label) : Origin := labels.foldl Origin.next fun _ => none

/-- A child under way was allocated by its process; a slot with a parent was allocated by a process, and
the parent is that process or `init`. -/
structure Origin.Matches (origin : Origin) (s : Table) : Prop where
  child : ∀ p np, (s.pc p).child = some np → origin np = some (p, s.pid np)
  parent : ∀ q p, s.parent q = some p →
    ∃ r, origin q = some (r, s.pid q) ∧ (p = initproc ∨ p = r)

/-- A process id changes when its slot is taken or freed. -/
theorem step_pid (step : Step s label s') (q : Slot) :
    s'.pid q = s.pid q ∨ s.state q = .unused ∨ s'.state q = .unused := by
  cases step with
  | forkFails p i runs here free unused | forkMakes p i runs here free unused =>
    by_cases same : q = i
    · exact Or.inr (Or.inl (same ▸ unused))
    · exact Or.inl (by simp [same])
  | reap p i havekids runs here child free zombie =>
    by_cases same : q = i
    · exact Or.inr (Or.inr (by simp [same]))
    · exact Or.inl (by simp [same])
  | _ => exact Or.inl rfl

/-- `allocproc` takes an unused slot and gives it the next process id. -/
theorem step_allocates {pid : Int32} {np : Slot} (step : Step s (.allocates p np pid) s') :
    s.state np = .unused ∧ pid = s.nextpid ∧ (s'.state np = .unused ∨ s'.pid np = pid) := by
  cases step with
  | forkFails _ _ runs here free unused => exact ⟨unused, rfl, Or.inl (by simp)⟩
  | forkMakes _ _ runs here free unused => exact ⟨unused, rfl, Or.inr (by simp)⟩

theorem Origin.next_of_used {origin : Origin} (step : Step s label s') (used : s.state q ≠ .unused) :
    origin.next label q = origin q := by
  cases label with
  | allocates p np pid =>
    refine if_neg ?_
    rintro rfl
    exact used (step_allocates step).1
  | _ => rfl

theorem origin_step {origin : Origin} (sound : s.Sound) (here : origin.Matches s)
    (step : Step s label s') : (origin.next label).Matches s' := by
  have sound' := Table.step_sound sound step
  refine ⟨fun p np is => ?_, fun q p parent => ?_⟩
  · have used' := (sound'.at_place p).used is
    rcases Table.step_child step is with old | ⟨unused, -, pid, rfl⟩
    · have used := (sound.at_place p).used old
      rw [Origin.next_of_used step (by simp [used]), here.child p np old]
      rcases step_pid step np with same | unused | unused
      · rw [same]
      · simp [used] at unused
      · simp [used'] at unused
    · obtain ⟨-, -, freed | same⟩ := step_allocates step
      · simp [used'] at freed
      · exact (if_pos rfl).trans (by rw [same])
  · have used' : s'.state q ≠ .unused := fun unused => by
      simp [sound'.orphan q unused] at parent
    have kept : ∀ {r}, s.state q ≠ .unused → origin q = some (r, s.pid q) →
        origin.next label q = some (r, s'.pid q) := by
      intro r used old
      rw [Origin.next_of_used step used, old]
      rcases step_pid step q with same | unused | unused
      · rw [same]
      · exact absurd unused used
      · exact absurd unused used'
    cases Table.step_inherits step q with
    | stays same =>
      rw [same] at parent
      have used : s.state q ≠ .unused := fun unused => by simp [sound.orphan q unused] at parent
      obtain ⟨r, made, family⟩ := here.parent q p parent
      exact ⟨r, kept used made, family⟩
    | adopted p' place parent' =>
      obtain rfl : p' = p := Option.some.inj (parent'.symm.trans parent)
      have is : (s.pc p').child = some q := by rw [place]; rfl
      exact ⟨p', kept (by simp [(sound.at_place p').used is]) (here.child p' q is), Or.inr rfl⟩
    | inherited p' status place before parent' next =>
      have used : s.state q ≠ .unused := fun unused => by simp [sound.orphan q unused] at before
      obtain ⟨r, made, -⟩ := here.parent q p' before
      exact ⟨r, kept used made, Or.inl (Option.some.inj (parent.symm.trans parent'))⟩
    | cleared unused parent' => simp [parent'] at parent

theorem origin_of_run (run : Run Step boot labels s) : (origin labels).Matches s := by
  have booted : Origin.Matches (fun _ => none) boot := by
    refine ⟨fun p np is => ?_, fun q p parent => ?_⟩
    · cases is
    · cases parent
  have preserved : ∀ (origin : Origin) s label s', Table.Sound s ∧ origin.Matches s →
      Step s label s' → s'.Sound ∧ (origin.next label).Matches s' :=
    fun _ _ _ _ here step => ⟨Table.step_sound here.1 step, origin_step here.1 here.2 step⟩
  exact (run.track preserved ⟨boot_sound, booted⟩).2

/-- Count a call of `allocproc` that found a slot. -/
def Label.count (n : Nat) : Label → Nat
  | .allocates .. => n + 1
  | _ => n

/-- The number of slots that `allocproc` took in a run. -/
def allocations (labels : List Label) : Nat := labels.foldl Label.count 0

/-- After `n` allocations the process ids below the next one were given in order. -/
structure Table.Numbered (s : Table) (n : Nat) : Prop where
  next : s.nextpid.toInt = n + 2
  range : ∀ p, s.state p ≠ .unused → 0 < (s.pid p).toInt ∧ (s.pid p).toInt < n + 2
  distinct : ∀ p q, s.state p ≠ .unused → s.state q ≠ .unused → s.pid p = s.pid q → p = q
  child : ∀ p np, (s.pc p).child = some np → (s.pid p).toInt < (s.pid np).toInt
  parent : ∀ q p, s.parent q = some p → p = initproc ∨ (s.pid p).toInt < (s.pid q).toInt

/-- A slot in use was in use with the same process id, or was just taken. -/
theorem pid_or_fresh (sound : s.Sound) (step : Step s label s') (busy : s'.state q ≠ .unused) :
    (s.state q ≠ .unused ∧ s'.pid q = s.pid q) ∨
      ∃ p, label = .allocates p q s.nextpid ∧ s'.pid q = s.nextpid := by
  have kept : s.state q ≠ .unused → s.state q ≠ .unused ∧ s'.pid q = s.pid q := by
    intro used
    rcases step_pid step q with same | unused | unused
    · exact ⟨used, same⟩
    · exact absurd unused used
    · exact absurd unused busy
  cases Table.step_turn sound step q with
  | stays same => exact Or.inl (kept (same ▸ busy))
  | moves before after => exact Or.inl (kept fun unused => by simp [Table.Alive, unused] at before)
  | allocated p pid is_fork before after =>
    subst is_fork
    obtain ⟨-, rfl, freed | same⟩ := step_allocates step
    · exact absurd freed busy
    · exact Or.inr ⟨p, rfl, same⟩
  | started p place before after => exact Or.inl (kept (by simp [before]))
  | exited status is_exit place after =>
    have here := sound.at_place q
    rw [place] at here
    exact Or.inl (kept (by simp [here.1.1]))
  | reaped p is_wait before after orphan => exact absurd after busy

theorem step_nextpid (step : Step s label s') {n : Nat} (small : label.count n + 2 < 2 ^ 31)
    (next : s.nextpid.toInt = n + 2) : s'.nextpid.toInt = label.count n + 2 := by
  cases step with
  | forkFails | forkMakes =>
    simp only [Label.count] at small
    simp only [Label.count, Table.setPc, Table.freeproc, Table.alloc, Table.setState]
    have one : (1 : Int32).toInt = 1 := rfl
    rw [Int32.toInt_add, next, one, Int.bmod_eq_of_le (by omega) (by omega)]
    push_cast
    omega
  | _ => exact next

theorem Label.le_count (n : Nat) (label : Label) : n ≤ label.count n := by
  cases label with
  | allocates => exact Nat.le_succ n
  | _ => exact le_rfl

theorem step_numbered {n : Nat} (sound : s.Sound) (here : s.Numbered n) (step : Step s label s')
    (small : label.count n + 2 < 2 ^ 31) : s'.Numbered (label.count n) := by
  have sound' := Table.step_sound sound step
  have more := label.le_count n
  have fresh : ∀ {q}, s'.state q ≠ .unused →
      (s.state q ≠ .unused ∧ s'.pid q = s.pid q) ∨
        ∃ p, label = .allocates p q s.nextpid ∧ (s'.pid q).toInt = n + 2 := by
    intro q busy
    rcases pid_or_fresh sound step busy with old | ⟨p, is_fork, pid⟩
    · exact Or.inl old
    · exact Or.inr ⟨p, is_fork, by rw [pid, here.next]⟩
  have same : ∀ {q}, s.state q ≠ .unused → s'.state q ≠ .unused → s'.pid q = s.pid q := by
    intro q used busy
    rcases step_pid step q with same | unused | unused
    · exact same
    · exact absurd unused used
    · exact absurd unused busy
  have alive : ∀ {state}, Table.Alive state → state ≠ .unused := by
    rintro state alive rfl
    simp [Table.Alive] at alive
  have parented : ∀ {t : Table} {q p}, t.Sound → t.parent q = some p → t.state q ≠ .unused :=
    fun sound parent unused => by simp [sound.orphan _ unused] at parent
  refine ⟨?_, fun p busy => ?_, fun p q busy busy' equal => ?_, fun p np is => ?_,
    fun q p parent => ?_⟩
  · exact step_nextpid step small here.next
  · rcases fresh busy with ⟨used, pid⟩ | ⟨p', rfl, pid⟩
    · have range := here.range p used
      rw [pid]
      omega
    · rw [pid]
      simp only [Label.count]
      omega
  · rcases fresh busy with ⟨used, pid⟩ | ⟨r, is_fork, pid⟩ <;>
      rcases fresh busy' with ⟨used', pid'⟩ | ⟨r', is_fork', pid'⟩
    · exact here.distinct p q used used' (by rw [← pid, ← pid', equal])
    · have range := here.range p used
      rw [← pid, equal] at range
      omega
    · have range := here.range q used'
      rw [← pid', ← equal] at range
      omega
    · cases is_fork.symm.trans is_fork'
      rfl
  · have busy : s'.state np ≠ .unused := by simp [(sound'.at_place p).used is]
    have runs' : s'.state p ≠ .unused := ((sound'.at_place p).forks is).alive.1
    rcases Table.step_child step is with old | ⟨unused, -, pid, rfl⟩
    · have used : s.state np ≠ .unused := by simp [(sound.at_place p).used old]
      have runs : s.state p ≠ .unused := ((sound.at_place p).forks old).alive.1
      rw [same used busy, same runs runs']
      exact here.child p np old
    · obtain ⟨-, rfl, freed | given⟩ := step_allocates step
      · exact absurd freed busy
      · rcases fresh runs' with ⟨used, kept⟩ | ⟨r, is_fork, -⟩
        · rw [given, kept, here.next]
          exact (here.range p used).2
        · cases is_fork
          exact absurd ((sound'.at_place _).used is) ((sound'.at_place _).forks is).alive.2.1
  · cases Table.step_inherits step q with
    | stays unchanged =>
      have before := unchanged ▸ parent
      have living := alive (sound.alive q p before)
      have living' := alive (sound'.alive q p parent)
      rw [same (parented sound before) (parented sound' parent), same living living']
      exact here.parent q p before
    | adopted p' place parent' =>
      obtain rfl : p' = p := Option.some.inj (parent'.symm.trans parent)
      have is : (s.pc p').child = some q := by rw [place]; rfl
      have living' := alive (sound'.alive q p' parent)
      have used : s.state q ≠ .unused := by simp [(sound.at_place p').used is]
      have runs : s.state p' ≠ .unused := ((sound.at_place p').forks is).alive.1
      rw [same used (parented sound' parent), same runs living']
      exact Or.inr (here.child p' q is)
    | inherited p' status place before parent' next =>
      exact Or.inl (Option.some.inj (parent.symm.trans parent'))
    | cleared unused parent' => simp [parent'] at parent

theorem numbered_of_run (run : Run Step boot labels s) (few : allocations labels + 2 < 2 ^ 31) :
    s.Numbered (allocations labels) := by
  have booted : boot.Numbered 0 := by
    have used : ∀ {p}, boot.state p ≠ .unused → p = initproc := by
      intro p busy
      by_contra other
      exact busy (if_neg other)
    refine ⟨rfl, fun p busy => ?_, fun p q busy busy' _ => (used busy).trans (used busy').symm,
      fun p np is => ?_, fun q p parent => ?_⟩
    · rw [used busy]
      decide
    · cases is
    · cases parent
  have preserved : ∀ (n : Nat) s label s',
      Table.Sound s ∧ (n + 2 < 2 ^ 31 → s.Numbered n) → Step s label s' →
        s'.Sound ∧ (label.count n + 2 < 2 ^ 31 → s'.Numbered (label.count n)) := by
    refine fun n s label s' here step => ⟨Table.step_sound here.1 step, fun small => ?_⟩
    have more := label.le_count n
    exact step_numbered here.1 (here.2 (by omega)) step small
  exact (run.track preserved ⟨boot_sound, fun _ => booted⟩).2 few

/-- **Process ids are positive and distinct**, until they wrap around. -/
theorem pids_distinct (run : Run Step boot labels s) (few : allocations labels + 2 < 2 ^ 31) :
    (∀ p, s.state p ≠ .unused → 0 < (s.pid p).toInt) ∧
      ∀ p q, s.state p ≠ .unused → s.state q ≠ .unused → s.pid p = s.pid q → p = q := by
  have numbered := numbered_of_run run few
  exact ⟨fun p busy => (numbered.range p busy).1, numbered.distinct⟩

theorem allocations_le_length (labels : List Label) : allocations labels ≤ labels.length := by
  have counted : ∀ n, labels.foldl Label.count n ≤ n + labels.length := by
    induction labels with
    | nil => exact fun n => le_rfl
    | cons label rest ih =>
      intro n
      have one : label.count n ≤ n + 1 := by cases label <;> simp [Label.count]
      calc rest.foldl Label.count (label.count n) ≤ label.count n + rest.length := ih _
        _ ≤ n + (rest.length + 1) := by omega
  simpa [allocations] using counted 0

theorem few_allocations {labels : List Label} (length : labels.length = waitForChild.length) :
    allocations labels + 2 < 2 ^ 31 := by
  have bound := allocations_le_length labels
  have short : waitForChild.length = 216 := by decide +kernel
  omega

theorem pids_distinct_of_child : ∃ labels s, Run Step boot labels s ∧
    0 < (s.pid firstSlot).toInt ∧ s.pid firstSlot ≠ s.pid initproc := by
  obtain ⟨labels, s, run, length, zombie, executes, s', goes⟩ := waits_for_child
  obtain ⟨positive, distinct⟩ := pids_distinct run (few_allocations length)
  have busy : s.state firstSlot ≠ .unused := by simp [zombie]
  have living : s.state initproc ≠ .unused := fun unused => by
    simpa [Table.Alive, unused] using (sound_of_run run).init
  exact ⟨labels, s, run, positive firstSlot busy,
    fun same => absurd (distinct firstSlot initproc busy living same) (by decide)⟩

/-- The process that many generations up. -/
def Table.ancestor (s : Table) : (generations : Nat) → Slot → Option Slot
  | 0, q => some q
  | generations + 1, q => (s.parent q).bind (s.ancestor generations)

/-- **The processes are a tree.** Every process that was started descends from `init`. -/
theorem descends_from_init (run : Run Step boot labels s) (few : allocations labels + 2 < 2 ^ 31)
    (q : Slot) (started : Table.Alive (s.state q) ∨ s.state q = .zombie) :
    ∃ generations, s.ancestor generations q = some initproc := by
  have numbered := numbered_of_run run few
  have sound := sound_of_run run
  -- the process ids decrease on the way up
  induction bound : (s.pid q).toInt.toNat using Nat.strong_induction_on generalizing q with
  | _ bound ih =>
    by_cases init : q = initproc
    · exact ⟨0, congrArg some init⟩
    · obtain ⟨p, parent⟩ := Option.ne_none_iff_exists'.mp (sound.parented q init started)
      rcases numbered.parent q p parent with rfl | lower
      · exact ⟨1, by rw [Table.ancestor, parent]; rfl⟩
      · have living := sound.alive q p parent
        have range := numbered.range p fun unused => by simp [Table.Alive, unused] at living
        obtain ⟨generations, top⟩ := ih _ (by omega) p (Or.inl living) rfl
        exact ⟨generations + 1, by rw [Table.ancestor, parent]; exact top⟩

theorem descends_from_init_of_child : ∃ labels s, Run Step boot labels s ∧
    ∃ generations, s.ancestor generations firstSlot = some initproc := by
  obtain ⟨labels, s, run, length, zombie, -⟩ := waits_for_child
  exact ⟨labels, s, run, descends_from_init run (few_allocations length) firstSlot (Or.inr zombie)⟩

end Csc3150.Lifecycle
