/-
**What the launchers report.**

`program1` waits for a child with `waitpid`, the kernel module `program2` with `kernel_wait`. Both
take the status word apart and print what has happened.

* `report_ends` — `program1` reports the first change of the child other than a continuation;
* `line_iff` — what its line tells;
* `log_iff` — the log of `program2` tells a number, and not whether it is an exit status or a signal.
-/

import Std.Data.String.ToNat

namespace Csc3150.Launcher

/-! ### Status words -/

/-- The signals 1, …, 64. -/
abbrev Signal := Fin 64

def Signal.number (signal : Signal) : Nat := signal.val + 1

/-- A change of the child. -/
inductive Change
  | exited (code : Fin 256)
  | killed (signal : Signal) (core : Bool)
  | stopped (signal : Signal)
  | continued
  deriving DecidableEq

/-- The status word that tells of a change. -/
def Change.status : Change → UInt32
  | .exited code => UInt32.ofNat code.val <<< 8
  | .killed signal core => UInt32.ofNat signal.number ||| if core then 0x80 else 0
  | .stopped signal => UInt32.ofNat signal.number <<< 8 ||| 0x7f
  | .continued => 0xffff

def WIFEXITED (status : UInt32) : Bool := status &&& 0x7f == 0

def WEXITSTATUS (status : UInt32) : Nat := ((status &&& 0xff00) >>> 8).toNat

def WTERMSIG (status : UInt32) : Nat := (status &&& 0x7f).toNat

/-- `((signed char) ((status & 0x7f) + 1) >> 1) > 0` -/
def WIFSIGNALED (status : UInt32) : Bool :=
  decide ((0 : Int8) < ((status &&& 0x7f) + 1).toUInt8.toInt8 >>> 1)

def WIFSTOPPED (status : UInt32) : Bool := status &&& 0xff == 0x7f

def WSTOPSIG (status : UInt32) : Nat := WEXITSTATUS status

/-! ### Names -/

/-- The name of a signal. -/
def map_status : Nat → String
  | 1 => "SIGHUP"
  | 2 => "SIGINT"
  | 3 => "SIGQUIT"
  | 4 => "SIGILL"
  | 5 => "SIGTRAP"
  | 6 => "SIGABRT"
  | 7 => "SIGBUS"
  | 8 => "SIGFPE"
  | 9 => "SIGKILL"
  | 10 => "SIGUSR1"
  | 11 => "SIGSEGV"
  | 12 => "SIGUSR2"
  | 13 => "SIGPIPE"
  | 14 => "SIGALRM"
  | 15 => "SIGTERM"
  | 16 => "SIGSTKFLT"
  | 17 => "SIGCHLD"
  | 18 => "SIGCONT"
  | 19 => "SIGSTOP"
  | 20 => "SIGTSTP"
  | 21 => "SIGTTIN"
  | 22 => "SIGTTOU"
  | 23 => "SIGURG"
  | 24 => "SIGXCPU"
  | 25 => "SIGXFSZ"
  | 26 => "SIGVTALRM"
  | 27 => "SIGPROF"
  | 28 => "SIGWINCH"
  | 29 => "SIGIO"
  | 30 => "SIGPWR"
  | 31 => "SIGSYS"
  | _ => "UNKNOWN"

/-- The signals that have a name of their own. -/
def named (n : Nat) : Option Nat := if 1 ≤ n ∧ n ≤ 31 then some n else none

theorem map_status_of_large (n : Nat) : map_status (n + 32) = "UNKNOWN" := rfl

/-- Names tell the signals apart that have one. -/
theorem map_status_iff {m n : Nat} : map_status m = map_status n ↔ named m = named n := by
  have small : ∀ m n : Fin 32, map_status m = map_status n ↔ named m = named n := by decide +kernel
  have none_of_large : ∀ k, named (k + 32) = none := fun k => if_neg (by omega)
  have unknown : ∀ k : Fin 32, map_status k = "UNKNOWN" ↔ named k = none := by decide +kernel
  rcases Nat.lt_or_ge m 32 with low | high
  · rcases Nat.lt_or_ge n 32 with low' | high'
    · exact small ⟨m, low⟩ ⟨n, low'⟩
    · obtain ⟨k, rfl⟩ := Nat.exists_eq_add_of_le' high'
      rw [map_status_of_large, none_of_large]
      exact unknown ⟨m, low⟩
  · obtain ⟨k, rfl⟩ := Nat.exists_eq_add_of_le' high
    rw [map_status_of_large, none_of_large]
    rcases Nat.lt_or_ge n 32 with low' | high'
    · exact eq_comm.trans ((unknown ⟨n, low'⟩).trans eq_comm)
    · obtain ⟨k', rfl⟩ := Nat.exists_eq_add_of_le' high'
      rw [map_status_of_large, none_of_large]
      exact iff_of_true rfl rfl

/-! ### `program1` -/

/-- What `main` prints at the end, and the exit status of `program1`. -/
structure Ending where
  line : String
  code : Nat
  deriving DecidableEq

/-- The loop of `main`: the results of `waitpid` in order, `none` for `-1`. The loop goes on waiting when
they are not enough to end it. -/
def report : List (Option UInt32) → Option Ending
  | [] => none
  | none :: _ => some ⟨"waitpid error\n", 1⟩
  | some status :: rest =>
    if WIFEXITED status then
      some ⟨"Normal termination with EXIT STATUS = " ++ (WEXITSTATUS status).repr ++ "\n", 0⟩
    else if WIFSIGNALED status then
      some ⟨"child process get " ++ map_status (WTERMSIG status) ++ " signal\n", 0⟩
    else if WIFSTOPPED status then
      some ⟨"child process get " ++ map_status (WSTOPSIG status) ++ " signal\n", 0⟩
    else report rest

/-- The line for a change. -/
def Change.line : Change → Option String
  | .exited code => some ("Normal termination with EXIT STATUS = " ++ code.val.repr ++ "\n")
  | .killed signal _ | .stopped signal =>
    some ("child process get " ++ map_status signal.number ++ " signal\n")
  | .continued => none

theorem exited_status : ∀ code : Fin 256, WIFEXITED (Change.exited code).status = true ∧
    WEXITSTATUS (Change.exited code).status = code.val := by
  decide +kernel

theorem killed_status : ∀ (signal : Signal) (core : Bool),
    WIFEXITED (Change.killed signal core).status = false ∧
      WIFSIGNALED (Change.killed signal core).status = true ∧
      WTERMSIG (Change.killed signal core).status = signal.number := by
  decide +kernel

theorem stopped_status : ∀ signal : Signal, WIFEXITED (Change.stopped signal).status = false ∧
    WIFSIGNALED (Change.stopped signal).status = false ∧
      WIFSTOPPED (Change.stopped signal).status = true ∧
      WSTOPSIG (Change.stopped signal).status = signal.number := by
  decide +kernel

theorem continued_status : WIFEXITED Change.continued.status = false ∧
    WIFSIGNALED Change.continued.status = false ∧ WIFSTOPPED Change.continued.status = false := by
  decide +kernel

/-- A round of the loop. -/
theorem report_cons (change : Change) (rest : List (Option UInt32)) :
    report (some change.status :: rest) = change.line.elim (report rest) fun line => some ⟨line, 0⟩ := by
  rw [report]
  cases change with
  | exited code =>
    obtain ⟨exits, status⟩ := exited_status code
    rw [if_pos exits, status]
    rfl
  | killed signal core =>
    obtain ⟨exits, signaled, status⟩ := killed_status signal core
    rw [if_neg (by simp [exits]), if_pos signaled, status]
    rfl
  | stopped signal =>
    obtain ⟨exits, signaled, isStopped, status⟩ := stopped_status signal
    rw [if_neg (by simp [exits]), if_neg (by simp [signaled]), if_pos isStopped, status]
    rfl
  | continued =>
    obtain ⟨exits, signaled, isStopped⟩ := continued_status
    rw [if_neg (by simp [exits]), if_neg (by simp [signaled]), if_neg (by simp [isStopped])]
    rfl

/-- **`program1` reports the first change but continuations.** Whatever changes `waitpid` tells of, in
whatever number, and whether it fails after them or not, the loop ends at the first change that is not a
continuation, with the line for it. -/
theorem report_ends (changes : List Change) (rest : List (Option UInt32)) :
    report (changes.map (fun change => some change.status) ++ rest) =
      (changes.findSome? Change.line).elim (report rest) fun line => some ⟨line, 0⟩ := by
  induction changes with
  | nil => rfl
  | cons change changes ih =>
    rw [List.map_cons, List.cons_append, report_cons, List.findSome?_cons, ih]
    cases change.line <;> rfl

/-- What a line tells. -/
inductive Told
  | exit (code : Nat)
  | signal (name : Option Nat)
  deriving DecidableEq

def Change.told : Change → Option Told
  | .exited code => some (.exit code.val)
  | .killed signal _ | .stopped signal => some (.signal (named signal.number))
  | .continued => none

theorem exit_line_iff {m n : Nat} : "Normal termination with EXIT STATUS = " ++ m.repr ++ "\n" =
    "Normal termination with EXIT STATUS = " ++ n.repr ++ "\n" ↔ m = n := by
  rw [String.append_left_inj, String.append_right_inj]
  exact Nat.repr_inj

theorem signal_line_iff {m n : Nat} : "child process get " ++ map_status m ++ " signal\n" =
    "child process get " ++ map_status n ++ " signal\n" ↔ named m = named n := by
  rw [String.append_left_inj, String.append_right_inj, map_status_iff]

theorem exit_line_ne {a b c d : String} : "Normal termination with EXIT STATUS = " ++ a ++ b ≠
    "child process get " ++ c ++ d := by
  intro same
  have first : some 'N' = some 'c' := by
    simpa [String.toList_append] using congrArg (fun s => s.toList.head?) same
  cases first

/-- **What `program1` tells.** Its line tells an exit status from a signal, one exit status from
another, and one of the signals 1, …, 31 from every other signal; it does not tell a stop from a
termination, nor the signals from 32 on apart. -/
theorem line_iff {a b : Change} : a.line = b.line ↔ a.told = b.told := by
  cases a with
  | exited m =>
    cases b with
    | exited n => simp only [Change.line, Change.told, Option.some.injEq, Told.exit.injEq, exit_line_iff]
    | continued => simp [Change.line, Change.told]
    | killed | stopped => simp [Change.line, Change.told, exit_line_ne]
  | continued => cases b <;> simp [Change.line, Change.told]
  | killed | stopped =>
    cases b with
    | exited n => simp [Change.line, Change.told, exit_line_ne.symm]
    | continued => simp [Change.line, Change.told]
    | killed | stopped =>
      simp only [Change.line, Change.told, Option.some.injEq, Told.signal.injEq, signal_line_iff]

/-! ### `program2` -/

/-- What `my_fork` prints about the status. -/
def my_fork_report (status : UInt32) : List String :=
  (if status &&& 0x7f == 0 then
    let exit_code := ((status &&& 0xff00) >>> 8).toNat
    ["[program2] : get " ++ map_status exit_code ++ " signal\n",
      "[program2] : child process terminated",
      "[program2] : The return signal is " ++ exit_code.repr ++ "\n"]
  else []) ++
  (if status &&& 0x7f != 0 then
    let signal_number := (status &&& 0x7f).toNat
    ["[program2] : get " ++ map_status signal_number ++ " signal\n"] ++
      (if status &&& 0x80 != 0 then ["[program2] : Child produced a core dump"] else []) ++
      ["[program2] : child process terminated",
        "[program2] : The return signal is " ++ signal_number.repr ++ "\n"]
  else []) ++
  (if status &&& 0x7f == 0x7f then
    let stop_signal := ((status >>> 8) &&& 0xff).toNat
    ["[program2] : get " ++ map_status stop_signal ++ " signal\n",
      "[program2] : The return signal is " ++ stop_signal.repr ++ "\n"]
  else [])

/-- The exit status or signal of a child that has ended, and whether it dumped core. -/
def Change.ending : Change → Option (Nat × Bool)
  | .exited code => some (code.val, false)
  | .killed signal core => some (signal.number, core)
  | .stopped _ | .continued => none

/-- The log of a child that has ended. -/
def log (ending : Nat × Bool) : List String :=
  ["[program2] : get " ++ map_status ending.1 ++ " signal\n"] ++
    (if ending.2 then ["[program2] : Child produced a core dump"] else []) ++
    ["[program2] : child process terminated",
      "[program2] : The return signal is " ++ ending.1.repr ++ "\n"]

theorem exited_bits : ∀ code : Fin 256, ((Change.exited code).status &&& 0x7f == 0) = true ∧
    ((Change.exited code).status &&& 0x7f == 0x7f) = false := by
  decide +kernel

theorem killed_bits : ∀ (signal : Signal) (core : Bool),
    ((Change.killed signal core).status &&& 0x7f == 0) = false ∧
      ((Change.killed signal core).status &&& 0x80 != 0) = core ∧
      ((Change.killed signal core).status &&& 0x7f == 0x7f) = false := by
  decide +kernel

theorem my_fork_report_eq {change : Change} {ending : Nat × Bool}
    (ends : change.ending = some ending) : my_fork_report change.status = log ending := by
  cases change with
  | exited code =>
    cases ends
    obtain ⟨zero, low⟩ := exited_bits code
    have number : (((Change.exited code).status &&& 0xff00) >>> 8).toNat = code.val :=
      (exited_status code).2
    simp only [my_fork_report, bne, zero, low, number, log]
    rfl
  | killed signal core =>
    cases ends
    obtain ⟨zero, dumps, low⟩ := killed_bits signal core
    have number : ((Change.killed signal core).status &&& 0x7f).toNat = signal.number :=
      (killed_status signal core).2.2
    rw [my_fork_report, dumps]
    simp only [bne, zero, low, number, log]
    cases core <;> rfl
  | stopped => cases ends
  | continued => cases ends

/-- **What the log of `program2` tells.** Two children that have ended leave the same log exactly when
their numbers are the same, and both or none dumped core: an exit status `n` and a death by signal `n`
are the same to it. -/
theorem log_iff {a b : Change} {m n : Nat × Bool} (first : a.ending = some m)
    (second : b.ending = some n) :
    my_fork_report a.status = my_fork_report b.status ↔ m = n := by
  rw [my_fork_report_eq first, my_fork_report_eq second]
  refine ⟨fun same => ?_, congrArg log⟩
  obtain ⟨number, core⟩ := m
  obtain ⟨number', core'⟩ := n
  have last := congrArg List.getLast? same
  have length := congrArg List.length same
  simp only [log, List.getLast?_append, List.getLast?_cons_cons, List.getLast?_singleton,
    Option.some_or, Option.some.injEq, String.append_left_inj, String.append_right_inj,
    Nat.repr_inj] at last
  subst last
  cases core <;> cases core' <;> first | rfl | cases length

theorem log_iff_nine : my_fork_report (Change.exited 9).status =
    my_fork_report (Change.killed 8 false).status :=
  (log_iff rfl rfl).mpr rfl

end Csc3150.Launcher
