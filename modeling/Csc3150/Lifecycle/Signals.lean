/-
**What `kill` finds.**

* `kill_misses_none` — `kill` returns `-1` only if every slot was without the process id at some moment
  of its scan;
* `fork_full` — and `allocproc` finds no slot only if every slot was in use at some moment of its;
* `killed_at_birth_iff` — a new process has its `killed` flag set exactly when a `kill(0)` found its slot
  while it was unused.
-/

import Csc3150.Lifecycle.Family
import Mathlib.Data.List.Induction

namespace Csc3150.Lifecycle

open Mmap (NPROC initproc)
open Transition

variable {s s' : Table} {label : Label} {labels : List Label} {p q : Slot} {pid : Int32}

/-! ### Scans of the table -/

/-- A run comes through a state. -/
def Passes (s : Table) (labels : List Label) (s' : Table) (holds : Table → Prop) : Prop :=
  ∃ before after middle, labels = before ++ after ∧ Run Step s before middle ∧ holds middle ∧
    Run Step middle after s'

/-- It holds here. -/
theorem Passes.now {holds : Table → Prop} (here : holds s) (run : Run Step s labels s') :
    Passes s labels s' holds :=
  ⟨[], labels, s, rfl, .nil s, here, run⟩

theorem Passes.later {holds : Table → Prop} {middle : Table} (step : Step s label middle)
    (passes : Passes middle labels s' holds) : Passes s (label :: labels) s' holds := by
  obtain ⟨before, after, state, rfl, run, here, rest⟩ := passes
  exact ⟨label :: before, after, state, rfl, .cons step run, here, rest⟩

/-- A loop over the table goes from one slot to the next when it has seen that slot. -/
def Scans (p : Slot) (place : Nat → Pc) (seen : Table → Slot → Prop) : Prop :=
  ∀ s label s' i, Step s label s' → s'.pc p = place i →
    s.pc p = place i ∨ i = 0 ∨ ∃ q : Slot, i = q.val + 1 ∧ s.pc p = place q ∧ seen s q

/-- What a loop has behind it, it has seen. -/
theorem Scans.passes {place : Nat → Pc} {seen : Table → Slot → Prop} (scans : Scans p place seen)
    (run : Run Step s labels s') {j : Nat} (there : s'.pc p = place j) (behind : q.val < j) :
    (∃ i, s.pc p = place i ∧ q.val < i) ∨ Passes s labels s' (seen · q) := by
  induction run with
  | nil s => exact Or.inl ⟨j, there, behind⟩
  | @cons s middle s' label labels step rest ih =>
    rcases ih there with ⟨i, place, low⟩ | passes
    · rcases scans _ _ _ i step place with same | rfl | ⟨q', rfl, before, sees⟩
      · exact Or.inl ⟨i, same, low⟩
      · exact absurd low (Nat.not_lt_zero _)
      · rcases Nat.lt_succ_iff_lt_or_eq.mp low with lower | same
        · exact Or.inl ⟨q'.val, before, lower⟩
        · obtain rfl : q = q' := Fin.ext same
          exact Or.inr (.now sees (.cons step rest))
    · exact Or.inr (.later step passes)

/-- How a process comes to a place in the loop of `kill` or of `allocproc`. -/
inductive Table.Arrives (s : Table) (p : Slot) : Pc → Prop
  | stays {pc : Pc} (here : s.pc p = pc) : Arrives s p pc
  | kill (pid : Int32) : Arrives s p (.kill pid 0)
  | fork : Arrives s p (.fork 0)
  | killNext {pid : Int32} {q : Slot} (here : s.pc p = .kill pid q) (other : s.pid q ≠ pid) :
      Arrives s p (.kill pid (q.val + 1))
  | forkNext {q : Slot} (here : s.pc p = .fork q) (busy : s.state q ≠ .unused) :
      Arrives s p (.fork (q.val + 1))

/-- A scan gets to a slot from the slot before, after a look at it. -/
theorem arrives {pc : Pc} (step : Step s label s') (place : s'.pc p = pc)
    (scanning : (∃ pid i, pc = .kill pid i) ∨ ∃ i, pc = .fork i) : s.Arrives p pc := by
  have user : Pc.user ≠ pc := by
    rcases scanning with ⟨pid, i, rfl⟩ | ⟨i, rfl⟩ <;> exact Pc.noConfusion
  have alloc : ∀ {i r : Slot} {pc'}, (((s.alloc i).setPc r pc').pc p = pc) → pc' ≠ pc → s.pc p = pc := by
    intro i r pc' place other
    have before := Table.pc_of_other place other
    simp only [Table.alloc] at before
    split at before
    · exact absurd before user
    · exact before
  cases step with
  | schedule r free ready =>
    by_cases same : p = r
    · subst same
      refine .stays (Pc.eq_of_resumed (by simpa using place) ?_)
      rcases scanning with ⟨pid, i, rfl⟩ | ⟨i, rfl⟩ <;> exact Pc.noConfusion
    · exact .stays (by simpa [same] using place)
  | yield | sleep | notify | setkilled => exact .stays place
  | kill r pid runs here =>
    by_cases same : p = r
    · subst same
      obtain rfl : Pc.kill pid 0 = pc := by simpa using place
      exact .kill pid
    · exact .stays (by simpa [same] using place)
  | killNext r pid i runs here free other =>
    by_cases same : p = r
    · subst same
      obtain rfl : Pc.kill pid (i.val + 1) = pc := by simpa using place
      exact .killNext here other
    · exact .stays (by simpa [same] using place)
  | fork r runs here =>
    by_cases same : p = r
    · subst same
      obtain rfl : Pc.fork 0 = pc := by simpa using place
      exact .fork
    · exact .stays (by simpa [same] using place)
  | forkNext r i runs here free busy =>
    by_cases same : p = r
    · subst same
      obtain rfl : Pc.fork (i.val + 1) = pc := by simpa using place
      exact .forkNext here busy
    · exact .stays (by simpa [same] using place)
  | forkFails r i runs here free unused => exact .stays (alloc place user)
  | forkMakes r i runs here free unused =>
    refine .stays (alloc place ?_)
    rcases scanning with ⟨pid, i, rfl⟩ | ⟨i, rfl⟩ <;> exact Pc.noConfusion
  | wakeupEnd r chan i next runs here last =>
    refine .stays (Table.pc_of_other place ?_)
    rcases scanning with ⟨pid, i, rfl⟩ | ⟨i, rfl⟩ <;> cases next <;> exact Pc.noConfusion
  | _ =>
    refine .stays (Table.pc_of_other place ?_)
    rcases scanning with ⟨pid, i, rfl⟩ | ⟨i, rfl⟩ <;> exact Pc.noConfusion

/-- `kill` looks at the pids of the table. -/
theorem kill_scans (p : Slot) (pid : Int32) : Scans p (.kill pid) fun s q => s.pid q ≠ pid := by
  intro s label s' i step place
  cases arrives step place (Or.inl ⟨pid, i, rfl⟩) with
  | stays here => exact Or.inl here
  | kill => exact Or.inr (Or.inl rfl)
  | killNext here other => exact Or.inr (Or.inr ⟨_, rfl, here, other⟩)

/-- `allocproc` looks for an unused slot. -/
theorem fork_scans (p : Slot) : Scans p .fork fun s q => s.state q ≠ .unused := by
  intro s label s' i step place
  cases arrives step place (Or.inr ⟨i, rfl⟩) with
  | stays here => exact Or.inl here
  | fork => exact Or.inr (Or.inl rfl)
  | forkNext here busy => exact Or.inr (Or.inr ⟨_, rfl, here, busy⟩)

/-- `init` runs, and is at the start of a scan. -/
def Table.scanning (s : Table) (pc : Pc) : Table := (s.setState initproc .running).setPc initproc pc

/-- Every slot is in use. -/
def Table.crowded (s : Table) : Table := { s with state := fun _ => .runnable }

/-- **`kill` misses no process.** When the loop of `kill` comes to its end, so that it returns `-1`, every
slot was at some moment since its start without the process id. -/
theorem kill_misses_none (run : Run Step s labels s') (starts : s.pc p = .kill pid 0) {j : Nat}
    (ends : s'.pc p = .kill pid j) (last : NPROC ≤ j) (q : Slot) :
    Passes s labels s' fun t => t.pid q ≠ pid := by
  rcases (kill_scans p pid).passes run ends (Nat.lt_of_lt_of_le q.isLt last) with
    ⟨i, place, low⟩ | passes
  · cases starts.symm.trans place
    exact absurd low (Nat.not_lt_zero _)
  · exact passes

theorem kill_misses_none_of_init : ∃ labels s', Run Step (boot.scanning (.kill 5 0)) labels s' ∧
    s'.pc initproc = .kill 5 NPROC ∧
      Passes (boot.scanning (.kill 5 0)) labels s' fun t => t.pid initproc ≠ 5 := by
  have performed : ((List.replicate NPROC (.go initproc true)).foldlM Table.perform
      (boot.scanning (.kill 5 0))).any (fun s => decide (s.pc initproc = .kill 5 NPROC)) = true := by
    decide +kernel
  obtain ⟨s', result, checked⟩ := (Option.any_eq_true _ _).mp performed
  obtain ⟨labels, run, -⟩ := run_of_perform result
  have ends := of_decide_eq_true checked
  exact ⟨labels, s', run, ends, kill_misses_none run rfl ends (Nat.le_refl _) initproc⟩

/-- **`fork` fails only when the table is full.** When the loop of `allocproc` comes to its end, every slot
was at some moment since its start in use. -/
theorem fork_full (run : Run Step s labels s') (starts : s.pc p = .fork 0) {j : Nat}
    (ends : s'.pc p = .fork j) (last : NPROC ≤ j) (q : Slot) :
    Passes s labels s' fun t => t.state q ≠ .unused := by
  rcases (fork_scans p).passes run ends (Nat.lt_of_lt_of_le q.isLt last) with
    ⟨i, place, low⟩ | passes
  · cases starts.symm.trans place
    exact absurd low (Nat.not_lt_zero _)
  · exact passes

theorem fork_full_of_init : ∃ labels s', Run Step (boot.crowded.scanning (.fork 0)) labels s' ∧
    s'.pc initproc = .fork NPROC ∧
      Passes (boot.crowded.scanning (.fork 0)) labels s' fun t => t.state firstSlot ≠ .unused := by
  have performed : ((List.replicate NPROC (.go initproc true)).foldlM Table.perform
      (boot.crowded.scanning (.fork 0))).any
        (fun s => decide (s.pc initproc = .fork NPROC)) = true := by
    decide +kernel
  obtain ⟨s', result, checked⟩ := (Option.any_eq_true _ _).mp performed
  obtain ⟨labels, run, -⟩ := run_of_perform result
  have ends := of_decide_eq_true checked
  exact ⟨labels, s', run, ends, fork_full run rfl ends (Nat.le_refl _) firstSlot⟩

/-! ### Killed before it is born -/

/-- The slots that a `kill(0)` has found since they were last taken or freed. -/
def Label.marks (marked : Slot → Bool) : Label → Slot → Bool
  | .kills _ target pid => fun q => if q = target ∧ pid = 0 then true else marked q
  | .allocates _ np _ | .reaps _ np _ _ => fun q => if q = np then false else marked q
  | _ => marked

def marked (labels : List Label) : Slot → Bool := labels.foldl Label.marks fun _ => false

/-- An unused slot has no process id, and is killed when it is marked. -/
def Table.Marked (s : Table) (marked : Slot → Bool) : Prop :=
  ∀ q, s.state q = .unused → s.pid q = 0 ∧ s.killed q = marked q

/-- A slot that gets another state than `UNUSED` is in use afterwards. -/
theorem unused_of_set {state : ProcState} (busy : state ≠ .unused)
    (unused : (if q = p then state else s.state q) = .unused) : s.state q = .unused := by
  split at unused
  · exact absurd unused busy
  · exact unused

/-- A slot that `wakeup` leaves unused was unused. -/
theorem unused_of_rouse {cond : Prop} [Decidable cond] (unused : (if q = p then
    if cond then .runnable else s.state p else s.state q) = ProcState.unused) :
    s.state q = .unused := by
  by_cases same : q = p
  · subst same
    rw [if_pos rfl] at unused
    split at unused
    · cases unused
    · exact unused
  · rwa [if_neg same] at unused

/-- The history of marks is that of the flags. -/
theorem step_marked {marked : Slot → Bool} (here : s.Marked marked) (step : Step s label s') :
    s'.Marked (label.marks marked) := by
  intro q unused
  have kept := here q
  cases step with
  | schedule | yield | sleep | start | zombie | sleepSched =>
    exact kept (unused_of_set ProcState.noConfusion unused)
  | notify | wakeupNext => exact kept (unused_of_rouse unused)
  | killFound r pid i runs place free found =>
    obtain ⟨none, mark⟩ := kept (unused_of_rouse unused)
    by_cases same : q = i
    · subst same
      obtain rfl : pid = 0 := found.symm.trans none
      exact ⟨none, by simp [Label.marks]⟩
    · exact ⟨none, by simpa [Label.marks, same] using mark⟩
  | setkilled r runs place free =>
    -- a process that runs is no unused slot
    have other : q ≠ r := by
      rintro rfl
      exact absurd (unused.symm.trans runs) ProcState.noConfusion
    obtain ⟨none, mark⟩ := kept unused
    exact ⟨none, by simpa [Label.marks, other] using mark⟩
  | forkFails r i runs place free was | reap r i havekids runs place child free was =>
    by_cases same : q = i
    · simp [Label.marks, same]
    · obtain ⟨none, mark⟩ := kept (by simpa [same] using unused)
      exact ⟨by simpa [same] using none, by simpa [Label.marks, same] using mark⟩
  | forkMakes r i runs place free was =>
    by_cases same : q = i
    · simp [same] at unused
    · obtain ⟨none, mark⟩ := kept (by simpa [same] using unused)
      exact ⟨by simpa [same] using none, by simpa [Label.marks, same] using mark⟩
  | _ => exact kept unused

/-- In a reachable state, an unused slot has the flag that the marks of the run say. -/
theorem marked_of_run (run : Run Step boot labels s) : s.Marked (marked labels) := by
  have booted : boot.Marked fun _ => false := by
    intro q unused
    by_cases same : q = initproc <;> simp [boot, same] at unused ⊢
  have preserved : ∀ (marked : Slot → Bool) s label s', Table.Marked s marked → Step s label s' →
      s'.Marked (label.marks marked) := fun _ _ _ _ here step => step_marked here step
  exact run.track preserved booted

/-- A step that takes or frees a slot. -/
def Label.turnsOver (q : Slot) : Label → Prop
  | .allocates _ np _ | .reaps _ np _ _ => np = q
  | _ => False

theorem marked_concat (labels : List Label) (label : Label) :
    marked (labels ++ [label]) = label.marks (marked labels) := by
  rw [marked, List.foldl_append]
  rfl

/-- Without a new mark the old one is still there. -/
theorem kept_of_marks {was : Slot → Bool} (other : ¬ ∃ killer, label = .kills killer q 0)
    (holds : label.marks was q = true) : ¬ label.turnsOver q ∧ was q = true := by
  cases label with
  | kills killer target pid =>
    simp only [Label.marks] at holds
    split at holds
    · next same =>
      obtain ⟨rfl, rfl⟩ := same
      exact absurd ⟨killer, rfl⟩ other
    · exact ⟨id, holds⟩
  | allocates _ np _ | reaps _ np _ _ =>
    simp only [Label.marks] at holds
    split at holds
    · cases holds
    · next differs => exact ⟨fun same => differs same.symm, holds⟩
  | _ => exact ⟨id, holds⟩

theorem marks_of_kept {was : Slot → Bool} (stays : ¬ label.turnsOver q) (holds : was q = true) :
    label.marks was q = true := by
  cases label with
  | kills killer target pid =>
    simp only [Label.marks]
    split <;> first | rfl | exact holds
  | allocates _ np _ | reaps _ np _ _ =>
    simp only [Label.marks]
    rw [if_neg fun same => stays same.symm]
    exact holds
  | _ => exact holds

/-- A slot is marked when a `kill(0)` has found it, and it was not taken or freed after that. -/
theorem marked_iff (labels : List Label) (q : Slot) : marked labels q = true ↔
    ∃ before killer after, labels = before ++ .kills killer q 0 :: after ∧
      ∀ label ∈ after, ¬ label.turnsOver q := by
  induction labels using List.reverseRec with
  | nil => simp [marked]
  | append_singleton labels label ih =>
    rw [marked_concat]
    constructor
    · intro holds
      by_cases found : ∃ killer, label = .kills killer q 0
      · obtain ⟨killer, rfl⟩ := found
        exact ⟨labels, killer, [], rfl, nofun⟩
      · obtain ⟨stays, holds⟩ := kept_of_marks found holds
        obtain ⟨before, killer, after, rfl, none⟩ := ih.mp holds
        refine ⟨before, killer, after ++ [label], by simp, fun other among => ?_⟩
        rcases List.mem_append.mp among with among | among
        · exact none other among
        · exact List.mem_singleton.mp among ▸ stays
    · rintro ⟨before, killer, after, same, none⟩
      rcases List.eq_nil_or_concat after with rfl | ⟨after, last, rfl⟩
      · obtain rfl := List.singleton_inj.mp (List.append_inj' same rfl).2
        simp [Label.marks]
      · rw [List.concat_eq_append, ← List.cons_append, ← List.append_assoc] at same
        obtain ⟨rfl, last⟩ := List.append_inj' same rfl
        obtain rfl := List.singleton_inj.mp last
        refine marks_of_kept (none label (by simp)) (ih.mpr ⟨before, killer, after, rfl, ?_⟩)
        exact fun other among => none other (by simp [among])

/-- **Killed before it is born.** The `killed` flag of a process that `fork` has just allocated is set
exactly when some `kill(0)` found its slot, whose process id was `0`, after it was last freed. -/
theorem killed_at_birth_iff {np : Slot} (run : Run Step boot labels s)
    (step : Step s (.allocates p np pid) s') (made : s'.state np ≠ .unused) :
    s'.killed np = true ↔ ∃ before killer after, labels = before ++ .kills killer np 0 :: after ∧
      ∀ label ∈ after, ¬ label.turnsOver np := by
  rw [← marked_iff]
  cases step with
  | forkFails _ _ runs here free unused => simp at made
  | forkMakes _ _ runs here free unused =>
    rw [← (marked_of_run run np unused).2]
    rfl

/-- `init` calls `kill(0)`, and then `fork`. -/
theorem killed_at_birth : ∃ labels s s', Run Step boot labels s ∧
    Step s (.allocates initproc firstSlot 2) s' ∧ s'.killed firstSlot = true ∧
      ∃ before killer after, labels = before ++ .kills killer firstSlot 0 :: after := by
  have performed : ([.schedule initproc, .kill initproc 0, .go initproc true, .go initproc true,
      .fork initproc, .go initproc true].foldlM Table.perform boot).any (fun s =>
        decide (s.Executes initproc) && (s.go initproc true).any fun made =>
          decide (made.1 = .allocates initproc firstSlot 2 ∧ made.2.state firstSlot ≠ .unused ∧
            made.2.killed firstSlot = true)) = true := by
    decide +kernel
  obtain ⟨labels, s, run, -, checked⟩ := exists_run performed
  obtain ⟨executes, made⟩ := Bool.and_eq_true_iff.mp checked
  obtain ⟨⟨label, s'⟩, goes, made⟩ := (Option.any_eq_true _ _).mp made
  obtain ⟨rfl, used, killed⟩ := of_decide_eq_true made
  have step := step_of_go (of_decide_eq_true executes) goes
  obtain ⟨before, killer, after, same, -⟩ := (killed_at_birth_iff run step used).mp killed
  exact ⟨labels, s, s', run, step, killed, before, killer, after, same⟩

end Csc3150.Lifecycle
