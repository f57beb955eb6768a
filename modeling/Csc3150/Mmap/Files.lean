/-
**References to open files.**

The calls that open, duplicate and close descriptors, next to those of `Kernel`, and the bookkeeping
of all of them: where the references to a `struct file` are.

* `Kernel.Counted k held` — every count is the number of descriptors and used regions that point to
  the file, over all processes, and the references that the call under way holds;
* `Counted.filedup`, `Counted.fileclose`, `Counted.setProc` — how a step moves references;
* `file_references_exact` — over every run of all these calls the counts are exact.

What `namei`, `create` and `pipealloc` do outside the file table is a parameter (`NameLayer`).
-/

import Csc3150.Library.Tally
import Csc3150.Mmap.Regions

namespace Csc3150.Mmap

open Outcome Program Search Tally Transition

variable {Ip σ : Type}

/-! ### Descriptors -/

/-- The arguments of `open`: the path, and what `sys_open` looks at in the mode. -/
structure OpenArgs where
  path : List UInt8
  omode : UInt32

def O_WRONLY : UInt32 := 0x001
def O_RDWR : UInt32 := 0x002
def O_TRUNC : UInt32 := 0x400

/-- The inode that `sys_open` has locked when it comes to the file table. -/
structure OpenInode (Ip : Type) where
  ip : Ip
  /-- Is it a device, rather than a file or a directory? -/
  device : Bool
  /-- Is it a regular file? -/
  regular : Bool

/-- The rest of the file system that these calls use: `lookup` is the path part of `sys_open` up to
`filealloc`, and `pipeinit` sets up the pipe of `pipealloc` if there is a page for it. -/
structure NameLayer (Ip σ : Type) where
  lookup : σ → (cwd : Option Ip) → OpenArgs → Option (OpenInode Ip) × σ
  itrunc : σ → Ip → σ
  pipeinit : σ → Bool × σ

/-- Allocate a file structure. -/
def filealloc : KProg Ip σ (Option Fp) := fun k =>
  match searchFin fun f => if (k.file f).ref = 0 then some f else none with
  | none => .ok (none, k)
  | some f => .ok (some f, k.setFile f { k.file f with ref := 1 })

/-- Allocate a file descriptor for the given file. -/
def fdalloc (pid : Pid) (f : Fp) : KProg Ip σ (Option (Fin NOFILE)) := fun k =>
  let p := k.proc pid
  match searchFin fun fd => if p.ofile fd = none then some fd else none with
  | none => .ok (none, k)
  | some fd => .ok (some fd, k.setProc pid (p.setFiles (Function.update p.ofile fd (some f))))

/-- Clear a descriptor. -/
def clearFd (pid : Pid) (fd : Fin NOFILE) : KProg Ip σ Unit :=
  modifyProc pid fun p => p.setFiles (Function.update p.ofile fd none)

theorem descriptor_lt {fd : Int32} (inside : 0 ≤ fd.toInt ∧ fd.toInt < NOFILE) :
    fd.toInt.toNat < NOFILE :=
  (Int.toNat_lt inside.1).mpr inside.2

/-- The descriptor that `argfd` finds open. -/
def argfdSlot (p : Proc Ip) (fd : Int32) : Option (Fin NOFILE × Fp) :=
  if inside : 0 ≤ fd.toInt ∧ fd.toInt < NOFILE then
    let slot : Fin NOFILE := ⟨fd.toInt.toNat, descriptor_lt inside⟩
    (p.ofile slot).map fun f => (slot, f)
  else none

variable (layer : FileLayer Ip σ) (names : NameLayer Ip σ)

def sys_dup (pid : Pid) (fd : Int32) : KProg Ip σ Int := fun k =>
  match argfdSlot (k.proc pid) fd with
  | none => .ok (-1, k)
  | some (_, f) => do
    let (new, k) ← fdalloc pid f k
    match new with
    | none => return (-1, k)
    | some new =>
      let ((), k) ← filedup f k
      return (new.val, k)

def sys_close (pid : Pid) (fd : Int32) : KProg Ip σ Int := fun k =>
  match argfdSlot (k.proc pid) fd with
  | none => .ok (-1, k)
  | some (slot, f) => do
    let ((), k) ← clearFd pid slot k
    let ((), k) ← fileclose layer f k
    return (0, k)

/-- `iunlockput` of the inode that the path led to. -/
def putInode (ip : Ip) : KProg Ip σ Unit := fun k => .ok ((), { k with fs := layer.iput k.fs ip })

/-- Fill in the file structure of a newly opened file, and truncate the file if asked to. -/
def fillFile (omode : UInt32) (node : OpenInode Ip) (f : Fp) : KProg Ip σ Unit := fun k =>
  let file : File Ip := { k.file f with
    type := if node.device then .device else .inode
    ip := some node.ip
    readable := omode &&& O_WRONLY == 0
    writable := omode &&& O_WRONLY != 0 || omode &&& O_RDWR != 0 }
  let fs := if omode &&& O_TRUNC ≠ 0 ∧ node.regular = true then names.itrunc k.fs node.ip else k.fs
  .ok ((), { k.setFile f file with fs := fs })

/-- `sys_open` from `filealloc` on, with the inode that the path led to. -/
def openInode (pid : Pid) (omode : UInt32) (node : OpenInode Ip) : KProg Ip σ Int := do
  match ← filealloc with
  | none =>
    putInode layer node.ip
    return -1
  | some f =>
    match ← fdalloc pid f with
    | none =>
      fileclose layer f
      putInode layer node.ip
      return -1
    | some fd =>
      fillFile names omode node f
      return fd.val

def sys_open (pid : Pid) (args : OpenArgs) : KProg Ip σ Int := fun k =>
  let (node, fs) := names.lookup k.fs (k.proc pid).cwd args
  match node with
  | none => .ok (-1, { k with fs := fs })
  | some node => openInode layer names pid args.omode node { k with fs := fs }

/-- Set up the pipe, if there is a page for it. -/
def pipeinit : KProg Ip σ Bool := fun k =>
  .ok ((names.pipeinit k.fs).1, { k with fs := (names.pipeinit k.fs).2 })

/-- Make a file structure one end of a pipe. -/
def pipeEnd (f : Fp) (writable : Bool) : KProg Ip σ Unit := fun k =>
  .ok ((), k.setFile f { k.file f with type := .pipe, readable := !writable, writable := writable })

/-- `pipealloc`: two file structures on one pipe. -/
def pipealloc : KProg Ip σ (Option (Fp × Fp)) := do
  match ← filealloc with
  | none => return none
  | some f0 =>
    match ← filealloc with
    | none =>
      fileclose layer f0
      return none
    | some f1 =>
      if ← pipeinit names then
        pipeEnd f0 false
        pipeEnd f1 true
        return some (f0, f1)
      else
        fileclose layer f0
        fileclose layer f1
        return none

/-- `sys_pipe`; `copied` says whether both descriptors could be copied out to the process. -/
def sys_pipe (pid : Pid) (copied : Bool) : KProg Ip σ Int := do
  match ← pipealloc layer names with
  | none => return -1
  | some (rf, wf) =>
    match ← fdalloc pid rf with
    | none =>
      fileclose layer rf
      fileclose layer wf
      return -1
    | some fd0 =>
      match ← fdalloc pid wf with
      | none =>
        clearFd pid fd0
        fileclose layer rf
        fileclose layer wf
        return -1
      | some fd1 =>
        if copied then return 0
        else
          clearFd pid fd0
          clearFd pid fd1
          fileclose layer rf
          fileclose layer wf
          return -1

/-- What a process can do to its descriptors and regions. -/
inductive FileAction
  | other (action : Action)
  | open (args : OpenArgs)
  | dup (fd : Int32)
  | close (fd : Int32)
  | pipe (copied : Bool)

/-- An action of a process. -/
structure FileLabel where
  pid : Pid
  action : FileAction

/-- `mmap` is asked for an open descriptor. -/
def FileEnabled (p : Proc Ip) : FileAction → Prop
  | .other (.mmap args) => Enabled p (.mmap args) ∧ (argfd p args.fd).isSome
  | .other action => Enabled p action
  | _ => p.state = .runnable ∧ p.killed = false

instance (p : Proc Ip) (action : FileAction) : Decidable (FileEnabled p action) := by
  unfold FileEnabled
  split <;> infer_instance

def fileExec (pid : Pid) : FileAction → KProg Ip σ Int
  | .other action => exec layer pid action
  | .open args => sys_open layer names pid args
  | .dup fd => sys_dup pid fd
  | .close fd => sys_close layer pid fd
  | .pipe copied => sys_pipe layer names pid copied

/-- An action that is enabled and ends. -/
def Kernel.FileStep (k : Kernel Ip σ) (label : FileLabel) (k' : Kernel Ip σ) : Prop :=
  FileEnabled (k.proc label.pid) label.action ∧
    ∃ r, fileExec layer names label.pid label.action k = .ok (r, k')

variable {layer names} {k k' : Kernel Ip σ} {pid : Pid} {f : Fp} {held held' : Fp → Int}

/-! ### Where the references are -/

/-- The file that a slot of the region table refers to. -/
def Vma.pointer (v : Vma) : Option Fp := if v.used then some v.file else none

/-- The descriptors and used regions of a process that point to a file. -/
def Proc.uses (p : Proc Ip) (f : Fp) : Int :=
  (∑ fd, points (p.ofile fd) f) + ∑ i, points (p.vma i).pointer f

/-- The references to every file: those of the processes, and those the call under way holds. -/
def Kernel.Counted (k : Kernel Ip σ) (held : Fp → Int) : Prop :=
  Balanced (fun f => (k.file f).ref) (fun q => (k.proc q).uses) held

theorem Proc.uses_congr {p p' : Proc Ip} (ofile : p'.ofile = p.ofile) (vma : p'.vma = p.vma) :
    p'.uses = p.uses := by
  funext f
  rw [uses, uses, ofile, vma]

theorem Proc.uses_setFiles (p : Proc Ip) (fd : Fin NOFILE) (pointer : Option Fp) (f : Fp) :
    (p.setFiles (Function.update p.ofile fd pointer)).uses f =
      p.uses f + (points pointer f - points (p.ofile fd) f) := by
  rw [uses, uses, setFiles_ofile, setFiles_vma, sum_update (fun pointer => points pointer f)]
  omega

theorem Proc.uses_setVma (p : Proc Ip) (i : Fin VMASIZE) (v : Vma) (f : Fp) :
    (p.setVma (Function.update p.vma i v)).uses f =
      p.uses f + (points v.pointer f - points (p.vma i).pointer f) := by
  have files : (p.setVma (Function.update p.vma i v)).ofile = p.ofile := rfl
  rw [uses, uses, files, setVma_vma, sum_update (fun v : Vma => points v.pointer f)]
  omega

theorem Proc.uses_nonneg (p : Proc Ip) (f : Fp) : 0 ≤ p.uses f :=
  add_nonneg (Finset.sum_nonneg fun _ _ => points_nonneg _ _)
    (Finset.sum_nonneg fun _ _ => points_nonneg _ _)

namespace Kernel.Counted

/-- The process that changes exchanges references with the call. -/
theorem setProc (counted : k.Counted held) {p : Proc Ip}
    (moved : ∀ f, p.uses f + held' f = (k.proc pid).uses f + held f) :
    (k.setProc pid p).Counted held' := by
  have uses : (fun q => ((k.setProc pid p).proc q).uses) =
      Function.update (fun q => (k.proc q).uses) pid p.uses := by
    funext q
    rw [setProc_proc, Function.apply_update (fun _ => Proc.uses)]
  rw [Counted, uses]
  exact counted.owner moved

/-- A process changes that keeps its descriptors and regions. -/
theorem setProc_same (counted : k.Counted held) {p : Proc Ip}
    (ofile : p.ofile = (k.proc pid).ofile) (vma : p.vma = (k.proc pid).vma) :
    (k.setProc pid p).Counted held :=
  counted.setProc fun f => by rw [Proc.uses_congr ofile vma]

/-- The call takes references to a file, or drops them. -/
theorem setFile (counted : k.Counted held) (file : File Ip) (change : Int)
    (ref : file.ref = (k.file f).ref + change)
    (moved : ∀ g, held' g = held g + change * points (some f) g) : (k.setFile f file).Counted held' := by
  have counts : (fun g => ((k.setFile f file).file g).ref) =
      Function.update (fun g => (k.file g).ref) f ((k.file f).ref + change) := by
    funext g
    rw [setFile_file, Function.apply_update (fun _ => File.ref), ref]
  rw [Counted, counts]
  exact (counted.resource f change).congr moved

theorem filedup (counted : k.Counted held) (run : filedup f k = .ok ((), k'))
    (moved : ∀ g, held' g = held g + points (some f) g) : k'.Counted held' := by
  obtain ⟨-, rfl⟩ := filedup_ends.mp run
  exact counted.setFile _ 1 rfl fun g => by rw [moved, one_mul]

theorem fileclose (counted : k.Counted held) (run : fileclose layer f k = .ok ((), k'))
    (moved : ∀ g, held' g = held g - points (some f) g) : k'.Counted held' := by
  obtain ⟨-, file, fs, rfl, ref, -⟩ := fileclose_ends run
  exact counted.setFile file (-1) (by omega) fun g => by rw [moved]; omega

theorem closeVma (counted : k.Counted held) {i : Fin VMASIZE} (used : ((k.proc pid).vma i).used = true)
    (run : closeVma layer pid i k = .ok ((), k')) : k'.Counted held := by
  obtain ⟨-, file, fs, rfl, ref⟩ := closeVma_ends run
  have dropped : (k.setFile ((k.proc pid).vma i).file file).Counted
      fun g => held g - points (some ((k.proc pid).vma i).file) g :=
    counted.setFile file (-1) (by omega) fun g => by omega
  have pointer : ((k.proc pid).vma i).pointer = some ((k.proc pid).vma i).file := if_pos used
  have gone : ((k.proc pid).vma i).free.pointer = none := rfl
  have closed : ((k.setFile ((k.proc pid).vma i).file file).setProc pid ((k.proc pid).setVma
      (Function.update (k.proc pid).vma i ((k.proc pid).vma i).free))).Counted held := by
    refine dropped.setProc fun f => ?_
    rw [Proc.uses_setVma, pointer, gone, points_none, Kernel.setFile_proc]
    omega
  exact closed

end Kernel.Counted

/-! ### Every action keeps the counts exact -/

/-- The counts are exact, and only running processes have descriptors and regions. -/
structure Kernel.FilesExact (k : Kernel Ip σ) : Prop where
  counted : k.Counted fun _ => 0
  idle : ∀ q, (k.proc q).state ≠ .runnable →
    (∀ fd, (k.proc q).ofile fd = none) ∧ ∀ i, ((k.proc q).vma i).used = false

theorem Kernel.FilesExact.update (exact : k.FilesExact) {p : Proc Ip}
    (counted : k'.Counted fun _ => 0) (procs : k'.proc = Function.update k.proc pid p)
    (idle : p.state ≠ .runnable → (∀ fd, p.ofile fd = none) ∧ ∀ i, (p.vma i).used = false) :
    k'.FilesExact := by
  refine ⟨counted, fun q stopped => ?_⟩
  rw [procs] at stopped ⊢
  by_cases same : q = pid
  · subst same
    rw [Function.update_self] at stopped ⊢
    exact idle stopped
  · rw [Function.update_of_ne same] at stopped ⊢
    exact exact.idle q stopped

/-- A process changes that keeps its descriptors and regions. -/
theorem Kernel.FilesExact.same (exact : k.FilesExact) {p : Proc Ip}
    (kernel : k'.file = k.file) (procs : k'.proc = Function.update k.proc pid p)
    (ofile : p.ofile = (k.proc pid).ofile) (vma : p.vma = (k.proc pid).vma)
    (idle : p.state ≠ .runnable → (k.proc pid).state ≠ .runnable) : k'.FilesExact := by
  refine exact.update ?_ procs fun stopped => ?_
  · have counted := exact.counted.setProc_same ofile vma
    unfold Counted at counted ⊢
    rwa [kernel, procs]
  · rw [ofile, vma]
    exact exact.idle pid (idle stopped)

section Actions

variable (exact : k.FilesExact)

include exact

theorem mmap_exact {args : MmapArgs} {r : Int} (running : (k.proc pid).state = .runnable)
    (run : sys_mmap pid args k = .ok (r, k')) : k'.FilesExact := by
  rcases sys_mmap_ends run with ⟨-, rfl⟩ |
    ⟨f, slot, assigned, v, place, fresh, -, rfl, -, referenced, rfl⟩
  · exact exact
  · obtain ⟨_, _, -, -, free, -⟩ := VmaTable.placeLoop_eq place
    refine exact.update ?_ rfl fun stopped => absurd running stopped
    have old : ((k.proc pid).vma slot).pointer = none := if_neg (Bool.eq_false_iff.mp free)
    have new : v.pointer = some v.file := if_pos fresh.used
    have mapped : (k.setProc pid ((k.proc pid).setVma
        (Function.update (k.proc pid).vma slot v))).Counted fun g => -points (some v.file) g := by
      refine exact.counted.setProc fun g => ?_
      rw [Proc.uses_setVma, old, new, points_none]
      omega
    exact mapped.setFile _ 1 rfl fun g => by omega

theorem munmap_exact {addr : Nat} {length : Int32} {r : Int}
    (running : (k.proc pid).state = .runnable)
    (run : sys_munmap layer pid addr length k = .ok (r, k')) : k'.FilesExact := by
  rcases sys_munmap_ends run with ⟨-, -, rfl⟩ | ⟨-, fs, written, rfl, -⟩ |
    ⟨-, i, fs, written, s, found, unmaps⟩
  · exact exact
  · exact ⟨exact.counted, exact.idle⟩
  · have unmapped : ({ k with fs := fs, written := written ++ k.written }.setSpace pid s).Counted
        fun _ => 0 := exact.counted.setProc_same rfl rfl
    by_cases whole : (munmapRange addr length).1 = ((k.proc pid).vma i).addr ∧
      (munmapRange addr length).2 = ((k.proc pid).vma i).limit
    · have covers := (VmaTable.find_eq_some_iff.mp found).1
      rw [Vma.contains, Bool.and_eq_true, Bool.and_eq_true] at covers
      refine exact.update ?_ unmaps.proc.1 fun stopped => absurd running stopped
      refine unmapped.closeVma ?_ (unmaps.closes whole)
      rw [Kernel.setSpace_proc, Function.update_self]
      exact covers.1.1
    · rw [unmaps.keeps whole]
      exact exact.update unmapped rfl fun stopped => absurd running stopped

theorem access_exact {addr : Nat} {store : Option UInt8}
    (run : access layer pid addr store k = .ok ((), k')) : k'.FilesExact := by
  obtain ⟨table, killed, ram, rfl⟩ := access_ends run
  exact exact.same rfl rfl rfl rfl id

theorem freeproc_exact (stopped : (k.proc pid).state ≠ .runnable)
    (run : freeproc pid k = .ok ((), k')) : k'.FilesExact := by
  obtain ⟨ram, rfl⟩ := freeproc_ends run
  exact exact.same rfl rfl rfl rfl fun _ => stopped

/-! ### `fork` and `exit` -/

theorem allocproc_exact : Ensures allocproc k fun r k' => k'.FilesExact ∧ ∀ np, r = some np →
    (k.proc np).state = .unused ∧ (∀ q, q ≠ np → k'.proc q = k.proc q) ∧
      (k'.proc np).ofile = (k.proc np).ofile ∧ (k'.proc np).vma = (k.proc np).vma ∧
      (k'.proc np).state = .unused := by
  intro r k' run
  rcases allocproc_ends run with ⟨rfl, rfl | ⟨np, ram, unused, rfl⟩⟩ |
    ⟨np, frame, table, ram, rfl, unused, rfl⟩
  · exact ⟨exact, nofun⟩
  · refine ⟨exact.same rfl rfl rfl rfl fun _ => ?_, nofun⟩
    rw [unused]
    exact ProcState.noConfusion
  · refine ⟨exact.same rfl rfl rfl rfl fun _ => ?_, ?_⟩
    · rw [unused]
      exact ProcState.noConfusion
    · rintro np' ⟨⟩
      refine ⟨unused, fun q other => Function.update_of_ne other _ _, ?_, ?_, ?_⟩ <;>
        rw [Kernel.setProc_proc, Function.update_self]
      exact unused

end Actions

/-- The child in slot `np` while `fork` copies: the descriptors and regions of the parent so far. -/
structure Copies (pid np : Pid) (start k : Kernel Ip σ) (fds : List (Fin NOFILE))
    (slots : List (Fin VMASIZE)) : Prop where
  counted : k.Counted fun _ => 0
  others : ∀ q, q ≠ np → k.proc q = start.proc q
  ofile : ∀ fd, (k.proc np).ofile fd = if fd ∈ fds then (start.proc pid).ofile fd else none
  vma : ∀ i, if i ∈ slots ∧ ((start.proc pid).vma i).used = true
    then (k.proc np).vma i = (start.proc pid).vma i else ((k.proc np).vma i).used = false

section Copies

variable {np : Pid} {start : Kernel Ip σ} {fds : List (Fin NOFILE)} {slots : List (Fin VMASIZE)}

/-- The child changes, and keeps its descriptors and regions. -/
theorem Copies.setProc (copies : Copies pid np start k fds slots) {p : Proc Ip}
    (ofile : p.ofile = (k.proc np).ofile) (vma : p.vma = (k.proc np).vma) :
    Copies pid np start (k.setProc np p) fds slots := by
  refine ⟨copies.counted.setProc_same ofile vma, fun q different => ?_, ?_, ?_⟩
  · rw [Kernel.setProc_proc, Function.update_of_ne different]
    exact copies.others q different
  · rw [Kernel.setProc_proc, Function.update_self, ofile]
    exact copies.ofile
  · rw [Kernel.setProc_proc, Function.update_self, vma]
    exact copies.vma

/-- Memory and the file system change. -/
theorem Copies.congr (copies : Copies pid np start k fds slots) (procs : k'.proc = k.proc)
    (file : k'.file = k.file) : Copies pid np start k' fds slots := by
  obtain ⟨counted, others, ofile, vma⟩ := copies
  refine ⟨?_, ?_, ?_, ?_⟩
  · unfold Kernel.Counted at counted ⊢
    rwa [procs, file]
  all_goals rwa [procs]

theorem Copies.exact (copies : Copies pid np start k fds slots) (exact : start.FilesExact)
    (running : (k.proc np).state = .runnable) : k.FilesExact := by
  refine ⟨copies.counted, fun q stopped => ?_⟩
  have other : q ≠ np := by
    rintro rfl
    exact stopped running
  rw [copies.others q other] at stopped ⊢
  exact exact.idle q stopped

theorem Copies.forkFile (copies : Copies pid np start k fds slots) (other : pid ≠ np)
    {fd : Fin NOFILE} (fresh : fd ∉ fds) (run : forkFile pid np fd k = .ok ((), k')) :
    Copies pid np start k' (fds ++ [fd]) slots := by
  have parent := copies.others pid other
  rw [Mmap.forkFile, parent] at run
  have copied : ∀ fd', fd' ≠ fd →
      ((k.proc np).ofile fd' = if fd' ∈ fds ++ [fd] then (start.proc pid).ofile fd' else none) := by
    intro fd' different
    rw [copies.ofile]
    simp only [List.mem_append, List.mem_singleton, different, or_false]
  have here : fd ∈ fds ++ [fd] := List.mem_append_right _ (List.mem_singleton_self fd)
  split at run
  · next closed =>
    cases run
    refine ⟨copies.counted, copies.others, fun fd' => ?_, copies.vma⟩
    by_cases same : fd' = fd
    · rw [same, copies.ofile, if_neg fresh, if_pos here, closed]
    · exact copied fd' same
  · next f isOpen =>
    obtain ⟨⟨⟨⟩, k₁⟩, dup, rest⟩ := bind_eq_ok.mp run
    have counted : k₁.Counted fun g => points (some f) g :=
      copies.counted.filedup dup fun g => by omega
    obtain ⟨-, rfl⟩ := filedup_ends.mp dup
    rw [modifyProc_ends.mp rest]
    refine ⟨counted.setProc fun g => ?_, fun q different => ?_, fun fd' => ?_, ?_⟩
    · rw [Proc.uses_setFiles, Kernel.setFile_proc, copies.ofile, if_neg fresh, points_none]
      omega
    · rw [Kernel.setProc_proc, Function.update_of_ne different]
      exact copies.others q different
    · rw [Kernel.setProc_proc, Function.update_self, Proc.setFiles_ofile]
      by_cases same : fd' = fd
      · rw [same, Function.update_self, if_pos here, isOpen]
      · rw [Function.update_of_ne same]
        exact copied fd' same
    · rw [Kernel.setProc_proc, Function.update_self]
      exact copies.vma

theorem Copies.forkVma (copies : Copies pid np start k fds slots) (other : pid ≠ np)
    {i : Fin VMASIZE} (fresh : i ∉ slots) (run : forkVma pid np i k = .ok ((), k')) :
    Copies pid np start k' fds (slots ++ [i]) := by
  have parent := copies.others pid other
  rw [Mmap.forkVma, parent] at run
  dsimp only at run
  have old : ((k.proc np).vma i).used = false := by
    have here := copies.vma i
    rwa [if_neg fun both => fresh both.1] at here
  have copied : ∀ j, j ≠ i → if j ∈ slots ++ [i] ∧ ((start.proc pid).vma j).used = true
      then (k.proc np).vma j = (start.proc pid).vma j else ((k.proc np).vma j).used = false := by
    intro j different
    simp only [List.mem_append, List.mem_singleton, different, or_false]
    exact copies.vma j
  have here : i ∈ slots ++ [i] := List.mem_append_right _ (List.mem_singleton_self i)
  split at run
  · next used =>
    obtain ⟨⟨⟨⟩, k₁⟩, copy, dup⟩ := bind_eq_ok.mp run
    rw [modifyProc_ends] at copy
    subst copy
    have counted : (k.setProc np ((k.proc np).setVma (Function.update (k.proc np).vma i
        ((start.proc pid).vma i)))).Counted fun g => -points (some ((start.proc pid).vma i).file) g := by
      refine copies.counted.setProc fun g => ?_
      have new : ((start.proc pid).vma i).pointer = some ((start.proc pid).vma i).file := if_pos used
      have gone : ((k.proc np).vma i).pointer = none := if_neg (Bool.eq_false_iff.mp old)
      rw [Proc.uses_setVma, new, gone, points_none]
      omega
    have after : k'.Counted fun _ => 0 := counted.filedup dup fun g => by omega
    obtain ⟨-, rfl⟩ := filedup_ends.mp dup
    refine ⟨after, fun q different => ?_, ?_, fun j => ?_⟩
    · rw [Kernel.setFile_proc, Kernel.setProc_proc, Function.update_of_ne different]
      exact copies.others q different
    · rw [Kernel.setFile_proc, Kernel.setProc_proc, Function.update_self]
      exact copies.ofile
    · rw [Kernel.setFile_proc, Kernel.setProc_proc, Function.update_self, Proc.setVma_vma]
      by_cases same : j = i
      · rw [same, Function.update_self, if_pos ⟨here, used⟩]
      · rw [Function.update_of_ne same]
        exact copied j same
  · next unused =>
    cases run
    refine ⟨copies.counted, copies.others, copies.ofile, fun j => ?_⟩
    by_cases same : j = i
    · rw [same, if_neg fun both => unused both.2]
      exact old
    · exact copied j same

/-- The loop of `fork` over the descriptors. -/
theorem Copies.forkFiles (copies : Copies pid np start k [] []) (other : pid ≠ np) :
    Ensures ((List.finRange NOFILE).forM (Mmap.forkFile pid np)) k fun _ k' =>
      Copies pid np start k' (List.finRange NOFILE) [] := by
  refine Ensures.forM (fun done k' => Copies pid np start k' done []) _ copies ?_
  rintro done fd rest split k₁ here ⟨⟩ k₂ run
  have distinct := split ▸ List.nodup_finRange NOFILE
  exact here.forkFile other (fun member =>
    (List.nodup_append.mp distinct).2.2 fd member fd List.mem_cons_self rfl) run

/-- The loop of `fork` over the regions. -/
theorem Copies.forkVmas (copies : Copies pid np start k fds []) (other : pid ≠ np) :
    Ensures ((List.finRange VMASIZE).forM (Mmap.forkVma pid np)) k fun _ k' =>
      Copies pid np start k' fds (List.finRange VMASIZE) := by
  refine Ensures.forM (fun done k' => Copies pid np start k' fds done) _ copies ?_
  rintro done i rest split k₁ here ⟨⟩ k₂ run
  have distinct := split ▸ List.nodup_finRange VMASIZE
  exact here.forkVma other (fun member =>
    (List.nodup_append.mp distinct).2.2 i member i List.mem_cons_self rfl) run

end Copies

/-- The child of a `fork`: the descriptors of its parent and the used regions, and no others. -/
def ChildOf (k k' : Kernel Ip σ) (pid np : Pid) : Prop :=
  (k'.proc np).ofile = (k.proc pid).ofile ∧
    ∀ i, if ((k.proc pid).vma i).used = true then (k'.proc np).vma i = (k.proc pid).vma i
      else ((k'.proc np).vma i).used = false

theorem fork_exact (exact : k.FilesExact) (running : (k.proc pid).state = .runnable) :
    Ensures (fork layer pid) k fun r k' => k'.FilesExact ∧
      (r = -1 ∨ ∃ np : Pid, r = np.val ∧ (k.proc np).state = .unused ∧ ChildOf k k' pid np) := by
  refine (allocproc_exact exact).bind fun found k₁ ⟨exact₁, allocated⟩ => ?_
  cases found with
  | none => exact Ensures.pure ⟨exact₁, Or.inl rfl⟩
  | some np =>
    obtain ⟨unused, others, ofile, vma, unused₁⟩ := allocated np rfl
    have other : pid ≠ np := by
      rintro rfl
      rw [running] at unused
      cases unused
    have stopped : (k.proc np).state ≠ .runnable := by
      rw [unused]
      exact ProcState.noConfusion
    obtain ⟨closed, unmapped⟩ := exact.idle np stopped
    intro r k' run
    obtain ⟨copied, k₂, copy, rest⟩ := bind_ends.mp run
    obtain ⟨s, -, rfl⟩ := inSpace_ends.mp copy
    split at rest
    · have start : Copies pid np k k₁ [] [] := by
        refine ⟨exact₁.counted, others, fun fd => ?_, fun i => ?_⟩
        · rw [if_neg List.not_mem_nil, ofile]
          exact closed fd
        · rw [if_neg fun both => List.not_mem_nil both.1, vma]
          exact unmapped i
      have retabled : Copies pid np k (k₁.setProc np ((k₁.proc np).setTable s.table)) [] [] :=
        start.setProc rfl rfl
      have spaced : Copies pid np k (k₁.setSpace np s) [] [] := retabled.congr rfl rfl
      obtain ⟨⟨⟩, k₃, sized, rest⟩ := bind_ends.mp rest
      rw [modifyProc_ends] at sized
      have first : Copies pid np k k₃ [] [] := sized ▸ spaced.setProc rfl rfl
      obtain ⟨⟨⟩, k₄, files, rest⟩ := bind_ends.mp rest
      have second := first.forkFiles other () k₄ files
      obtain ⟨⟨⟩, k₅, cwd, rest⟩ := bind_ends.mp rest
      rw [modifyProc_ends] at cwd
      have third : Copies pid np k k₅ (List.finRange NOFILE) [] := by
        rw [cwd]
        refine Copies.setProc ?_ rfl rfl
        exact second.congr rfl rfl
      obtain ⟨⟨⟩, k₆, vmas, rest⟩ := bind_ends.mp rest
      have fourth := third.forkVmas other () k₆ vmas
      obtain ⟨⟨⟩, k₇, started, rest⟩ := bind_ends.mp rest
      rw [modifyProc_ends] at started
      have last : Copies pid np k k₇ (List.finRange NOFILE) (List.finRange VMASIZE) :=
        started ▸ fourth.setProc rfl rfl
      have running : (k₇.proc np).state = .runnable := by
        rw [started, Kernel.setProc_proc, Function.update_self]
      cases rest
      refine ⟨last.exact exact running, Or.inr ⟨np, rfl, unused, ?_, fun i => ?_⟩⟩
      · exact funext fun fd => (last.ofile fd).trans (if_pos (List.mem_finRange fd))
      · simpa only [List.mem_finRange, true_and] using last.vma i
    · obtain ⟨⟨⟩, k₃, freed, rest⟩ := bind_ends.mp rest
      cases rest
      have spaced : (k₁.setSpace np s).FilesExact := exact₁.same rfl rfl rfl rfl id
      refine ⟨freeproc_exact spaced ?_ freed, Or.inl rfl⟩
      rw [Kernel.setSpace_proc, Function.update_self, Proc.setTable_state, unused₁]
      exact ProcState.noConfusion

/-- The loop of `exit` over the descriptors. -/
theorem exitFiles_counted (counted : k.Counted fun _ => 0) :
    Ensures ((List.finRange NOFILE).forM (exitFile layer pid)) k fun _ k' =>
      k'.Counted (fun _ => 0) ∧ (∀ q, q ≠ pid → k'.proc q = k.proc q) ∧
        ∀ fd, fd ∈ List.finRange NOFILE → (k'.proc pid).ofile fd = none := by
  refine Ensures.forM (fun done (k₁ : Kernel Ip σ) => k₁.Counted (fun _ => 0) ∧
    (∀ q, q ≠ pid → k₁.proc q = k.proc q) ∧ ∀ fd, fd ∈ done → (k₁.proc pid).ofile fd = none)
    _ ⟨counted, fun _ _ => rfl, nofun⟩ ?_
  rintro done fd rest - k₁ ⟨counted, others, none⟩ ⟨⟩ k₂ run
  rw [exitFile] at run
  split at run
  · next already =>
    cases run
    refine ⟨counted, others, fun fd' member => ?_⟩
    rcases List.mem_append.mp member with earlier | here
    · exact none fd' earlier
    · rw [List.mem_singleton.mp here]
      exact already
  · next f isOpen =>
    obtain ⟨⟨⟨⟩, k₃⟩, close, rest⟩ := bind_eq_ok.mp run
    have dropped : k₃.Counted fun g => -points (some f) g :=
      counted.fileclose close fun g => by omega
    obtain ⟨-, file, fs, rfl, -, -⟩ := fileclose_ends close
    rw [modifyProc_ends.mp rest]
    refine ⟨dropped.setProc fun g => ?_, fun q different => ?_, fun fd' member => ?_⟩
    · rw [Proc.uses_setFiles, points_none, Kernel.setFile_proc, isOpen]
      omega
    · rw [Kernel.setProc_proc, Function.update_of_ne different]
      exact others q different
    · rw [Kernel.setProc_proc, Function.update_self, Proc.setFiles_ofile]
      by_cases same : fd' = fd
      · rw [same, Function.update_self]
      · rw [Function.update_of_ne same]
        refine none fd' ((List.mem_append.mp member).resolve_right fun here => ?_)
        exact same (List.mem_singleton.mp here)

/-- The loop of `exit` over the regions. -/
theorem exitVmas_counted (counted : k.Counted fun _ => 0) :
    Ensures ((List.finRange VMASIZE).forM (exitVma layer pid)) k fun _ k' =>
      k'.Counted fun _ => 0 := by
  refine Ensures.forM_invariant counted fun i _ k₁ counted => ?_
  rintro ⟨⟩ k₂ run
  rw [exitVma] at run
  dsimp only at run
  split at run
  · next used =>
    obtain ⟨⟨⟨⟩, k₃⟩, unmapped, rest⟩ := bind_eq_ok.mp run
    obtain ⟨s, -, rfl⟩ := inSpace_ends.mp unmapped
    have spaced : (k₁.setSpace pid s).Counted fun _ => 0 := counted.setProc_same rfl rfl
    refine spaced.closeVma ?_ rest
    rwa [Kernel.setSpace_proc, Function.update_self]
  · cases run
    exact counted

theorem exit_exact (exact : k.FilesExact) (run : exit layer pid k = .ok ((), k')) :
    k'.FilesExact := by
  rw [exit] at run
  split at run
  · cases run
  · obtain ⟨⟨⟩, k₁, files, rest⟩ := bind_ends.mp run
    obtain ⟨counted, others, closed⟩ := exitFiles_counted exact.counted () k₁ files
    obtain ⟨⟨⟩, k₂, vmas, rest⟩ := bind_ends.mp rest
    have counted' := exitVmas_counted counted () k₂ vmas
    obtain ⟨table, procs⟩ := exitVmas_ends _ (List.nodup_finRange _) () k₂ vmas
    rw [modifyProc_ends.mp rest]
    refine ⟨counted'.setProc_same rfl rfl, fun q stopped => ?_⟩
    rw [Kernel.setProc_proc] at stopped ⊢
    by_cases same : q = pid
    · rw [same, Function.update_self]
      dsimp only
      rw [procs, Function.update_self]
      refine ⟨fun fd => closed fd (List.mem_finRange fd), fun i => ?_⟩
      rw [Proc.setVma_vma, freeSlots, if_pos (List.mem_finRange i)]
      rfl
    · rw [Function.update_of_ne same] at stopped ⊢
      dsimp only at stopped ⊢
      rw [procs, Function.update_of_ne same, others q same] at stopped ⊢
      exact exact.idle q stopped

/-! ### Calls on descriptors -/

/-- A call of process `pid` on its descriptors, in the middle of which it holds references. -/
structure Moves (pid : Pid) (start k : Kernel Ip σ) (held : Fp → Int) : Prop where
  counted : k.Counted held
  others : ∀ q, q ≠ pid → k.proc q = start.proc q
  running : (k.proc pid).state = .runnable

namespace Moves

variable {start : Kernel Ip σ} {fd : Fin NOFILE}

theorem exact (moves : Moves pid start k fun _ => 0) (exact : start.FilesExact) : k.FilesExact := by
  refine ⟨moves.counted, fun q stopped => ?_⟩
  have other : q ≠ pid := by
    rintro rfl
    exact stopped moves.running
  rw [moves.others q other] at stopped ⊢
  exact exact.idle q stopped

theorem congr (moves : Moves pid start k held) (same : ∀ g, held' g = held g) :
    Moves pid start k held' :=
  ⟨moves.counted.congr same, moves.others, moves.running⟩

variable (moves : Moves pid start k held)

include moves

theorem filealloc : Ensures filealloc k fun r k' =>
    Moves pid start k' (fun g => held g + points r g) ∧ k'.proc = k.proc := by
  intro r k' run
  rw [Mmap.filealloc] at run
  split at run
  · cases run
    exact ⟨moves.congr fun g => by rw [points_none, add_zero], rfl⟩
  · next f found =>
    obtain ⟨f', here, -⟩ := searchFin_eq_some_iff.mp found
    rw [Option.ite_none_right_eq_some, Option.some.injEq] at here
    obtain ⟨idle, rfl⟩ := here
    cases run
    refine ⟨⟨moves.counted.setFile _ 1 ?_ fun g => by rw [one_mul], moves.others, moves.running⟩, rfl⟩
    rw [idle]
    rfl

theorem setProc (p : Proc Ip) (running : p.state = .runnable)
    (moved : ∀ f, p.uses f + held' f = (k.proc pid).uses f + held f) :
    Moves pid start (k.setProc pid p) held' := by
  refine ⟨moves.counted.setProc moved, fun q other => ?_, ?_⟩
  · rw [Kernel.setProc_proc, Function.update_of_ne other]
    exact moves.others q other
  · rw [Kernel.setProc_proc, Function.update_self, running]

/-- A new descriptor takes over the reference. -/
theorem fdalloc : Ensures (fdalloc pid f) k fun r k' => (r = none ∧ k' = k) ∨
    ∃ fd, r = some fd ∧ Moves pid start k' (fun g => held g - points (some f) g) ∧
      (k.proc pid).ofile fd = none ∧
      (k'.proc pid).ofile = Function.update (k.proc pid).ofile fd (some f) := by
  intro r k' run
  rw [Mmap.fdalloc] at run
  split at run
  · cases run
    exact Or.inl ⟨rfl, rfl⟩
  · next fd found =>
    obtain ⟨fd', here, -⟩ := searchFin_eq_some_iff.mp found
    rw [Option.ite_none_right_eq_some, Option.some.injEq] at here
    obtain ⟨closed, rfl⟩ := here
    cases run
    refine Or.inr ⟨fd', rfl, moves.setProc _ moves.running fun g => ?_, closed, ?_⟩
    · rw [Proc.uses_setFiles, closed, points_none]
      omega
    · rw [Kernel.setProc_proc, Function.update_self, Proc.setFiles_ofile]

theorem fileclose : Ensures (fileclose layer f) k fun _ k' =>
    Moves pid start k' (fun g => held g - points (some f) g) ∧ k'.proc = k.proc := by
  rintro ⟨⟩ k' run
  have counted := moves.counted.fileclose run fun _ => rfl
  obtain ⟨-, file, fs, rfl, -, -⟩ := fileclose_ends run
  exact ⟨⟨counted, moves.others, moves.running⟩, rfl⟩

/-- A descriptor is cleared, and its reference left to the call. -/
theorem clearFd : Ensures (clearFd pid fd) k fun _ k' =>
    Moves pid start k' (fun g => held g + points ((k.proc pid).ofile fd) g) ∧
      (k'.proc pid).ofile = Function.update (k.proc pid).ofile fd none := by
  rintro ⟨⟩ k' run
  rw [modifyProc_ends.mp run]
  refine ⟨moves.setProc _ moves.running fun g => ?_, ?_⟩
  · rw [Proc.uses_setFiles, points_none]
    omega
  · rw [Kernel.setProc_proc, Function.update_self, Proc.setFiles_ofile]

/-- The file system changes, and a file structure keeps its count. -/
theorem setFile (file : File Ip) (ref : file.ref = (k.file f).ref) :
    Moves pid start (k.setFile f file) held :=
  ⟨moves.counted.setFile file 0 (by rw [ref, add_zero]) fun g => by rw [zero_mul, add_zero],
    moves.others, moves.running⟩

theorem setFs (fs : σ) : Moves pid start { k with fs := fs } held :=
  ⟨moves.counted, moves.others, moves.running⟩

end Moves

section Calls

variable (exact : k.FilesExact) (running : (k.proc pid).state = .runnable)

include exact running

theorem moves_start (fs : σ) : Moves pid k { k with fs := fs } fun _ => 0 :=
  ⟨exact.counted, fun _ _ => rfl, running⟩

theorem open_exact {args : OpenArgs} {r : Int}
    (run : sys_open layer names pid args k = .ok (r, k')) : k'.FilesExact := by
  rw [sys_open] at run
  dsimp only at run
  have start := moves_start exact running (names.lookup k.fs (k.proc pid).cwd args).2
  split at run
  · cases run
    exact start.exact exact
  · next node _ =>
    obtain ⟨file, k₁, alloc, rest⟩ := bind_ends.mp run
    obtain ⟨allocated, -⟩ := start.filealloc file k₁ alloc
    cases file with
    | none =>
      obtain ⟨⟨⟩, k₂, put, rest⟩ := bind_ends.mp rest
      cases put
      cases rest
      exact ((allocated.setFs _).congr fun g => by rw [points_none]; rfl).exact exact
    | some f =>
      obtain ⟨fd, k₂, slot, last⟩ := bind_ends.mp rest
      rcases allocated.fdalloc fd k₂ slot with ⟨rfl, rfl⟩ | ⟨fd, rfl, installed, -, -⟩
      · obtain ⟨⟨⟩, k₃, close, last⟩ := bind_ends.mp last
        obtain ⟨closed, -⟩ := allocated.fileclose () k₃ close
        obtain ⟨⟨⟩, k₄, put, last⟩ := bind_ends.mp last
        cases put
        cases last
        exact ((closed.setFs _).congr fun g => by omega).exact exact
      · obtain ⟨⟨⟩, k₃, fill, last⟩ := bind_ends.mp last
        cases fill
        cases last
        have filled := installed.setFile { k₂.file f with
          type := if node.device then .device else .inode
          ip := some node.ip
          readable := args.omode &&& O_WRONLY == 0
          writable := args.omode &&& O_WRONLY != 0 || args.omode &&& O_RDWR != 0 } rfl
        exact ((filled.setFs _).congr fun g => by omega).exact exact

theorem dup_exact {fd : Int32} {r : Int} (run : sys_dup pid fd k = .ok (r, k')) : k'.FilesExact := by
  rw [sys_dup] at run
  have start := moves_start exact running k.fs
  split at run
  · cases run
    exact exact
  · next f _ =>
    obtain ⟨⟨new, k₁⟩, alloc, rest⟩ := bind_eq_ok.mp run
    rcases start.fdalloc new k₁ alloc with ⟨rfl, rfl⟩ | ⟨new, rfl, installed, -, -⟩
    · cases rest
      exact exact
    · obtain ⟨⟨⟨⟩, k₂⟩, dup, rest⟩ := bind_eq_ok.mp rest
      cases rest
      have counted : k'.Counted fun _ => 0 := installed.counted.filedup dup fun g => by omega
      obtain ⟨-, rfl⟩ := filedup_ends.mp dup
      have moves : Moves pid k _ fun _ => 0 := ⟨counted, installed.others, installed.running⟩
      exact moves.exact exact

theorem close_exact {fd : Int32} {r : Int} (run : sys_close layer pid fd k = .ok (r, k')) :
    k'.FilesExact := by
  rw [sys_close] at run
  have start := moves_start exact running k.fs
  split at run
  · cases run
    exact exact
  · next slot f isOpen =>
    have holds : (k.proc pid).ofile slot = some f := by
      unfold argfdSlot at isOpen
      split at isOpen
      · obtain ⟨f', here, same⟩ := Option.map_eq_some_iff.mp isOpen
        cases same
        exact here
      · cases isOpen
    obtain ⟨⟨⟨⟩, k₁⟩, clear, rest⟩ := bind_eq_ok.mp run
    obtain ⟨⟨⟨⟩, k₂⟩, close, rest⟩ := bind_eq_ok.mp rest
    cases rest
    obtain ⟨cleared, -⟩ := start.clearFd () k₁ clear
    obtain ⟨closed, -⟩ := cleared.fileclose () k' close
    refine Moves.exact (closed.congr fun g => ?_) exact
    dsimp only
    rw [holds]
    omega

omit exact running in
/-- `pipealloc` hands over a reference to each of two files, or none. -/
theorem pipealloc_moves {start : Kernel Ip σ} (moves : Moves pid start k held) :
    Ensures (pipealloc layer names) k fun r k' =>
      (r = none ∧ Moves pid start k' held) ∨ ∃ f0 f1, r = some (f0, f1) ∧
        Moves pid start k' fun g => held g + points (some f0) g + points (some f1) g := by
  intro r k' run
  obtain ⟨first, k₁, alloc, rest⟩ := bind_ends.mp run
  obtain ⟨allocated, -⟩ := moves.filealloc first k₁ alloc
  cases first with
  | none =>
    cases rest
    exact Or.inl ⟨rfl, allocated.congr fun g => by rw [points_none, add_zero]⟩
  | some f0 =>
    obtain ⟨second, k₂, alloc', rest⟩ := bind_ends.mp rest
    obtain ⟨allocated', -⟩ := allocated.filealloc second k₂ alloc'
    cases second with
    | none =>
      obtain ⟨⟨⟩, k₃, close, rest⟩ := bind_ends.mp rest
      obtain ⟨closed, -⟩ := allocated'.fileclose () k₃ close
      cases rest
      exact Or.inl ⟨rfl, closed.congr fun g => by rw [points_none]; omega⟩
    | some f1 =>
      obtain ⟨room, k₃, init, rest⟩ := bind_ends.mp rest
      have initialised : Moves pid start k₃ fun g =>
          held g + points (some f0) g + points (some f1) g := by
        cases init
        exact allocated'.setFs _
      cases room with
      | true =>
        obtain ⟨⟨⟩, k₄, reader, rest⟩ := bind_ends.mp rest
        obtain ⟨⟨⟩, k₅, writer, rest⟩ := bind_ends.mp rest
        cases reader
        cases writer
        cases rest
        refine Or.inr ⟨f0, f1, rfl, Moves.setFile (Moves.setFile initialised _ ?_) _ ?_⟩ <;> rfl
      | false =>
        obtain ⟨⟨⟩, k₄, close, rest⟩ := bind_ends.mp rest
        obtain ⟨closed, -⟩ := initialised.fileclose () k₄ close
        obtain ⟨⟨⟩, k₅, close', rest⟩ := bind_ends.mp rest
        obtain ⟨closed', -⟩ := closed.fileclose () k₅ close'
        cases rest
        exact Or.inl ⟨rfl, closed'.congr fun g => by omega⟩

omit exact running in
/-- Both ends of a new pipe are closed. -/
theorem closeEnds_moves {start : Kernel Ip σ} {rf wf : Fp}
    (moves : Moves pid start k fun g => points (some rf) g + points (some wf) g) {r : Int}
    (run : (do
      fileclose layer rf
      fileclose layer wf
      return -1 : KProg Ip σ Int) k = .ok (r, k')) : Moves pid start k' fun _ => 0 := by
  obtain ⟨⟨⟩, k₁, close, rest⟩ := bind_ends.mp run
  obtain ⟨closed, -⟩ := moves.fileclose () k₁ close
  obtain ⟨⟨⟩, k₂, close', rest⟩ := bind_ends.mp rest
  obtain ⟨closed', -⟩ := closed.fileclose () k₂ close'
  cases rest
  exact closed'.congr fun g => by omega

theorem pipe_exact {copied : Bool} {r : Int}
    (run : sys_pipe layer names pid copied k = .ok (r, k')) : k'.FilesExact := by
  obtain ⟨ends, k₁, alloc, rest⟩ := bind_ends.mp run
  rcases pipealloc_moves (moves_start exact running k.fs) ends k₁ alloc with
    ⟨rfl, none⟩ | ⟨rf, wf, rfl, allocated⟩
  · cases rest
    exact none.exact exact
  · obtain ⟨fd0, k₂, slot, rest₂⟩ := bind_ends.mp rest
    rcases allocated.fdalloc fd0 k₂ slot with ⟨rfl, rfl⟩ | ⟨fd0, rfl, first, -, ofile⟩
    · exact (closeEnds_moves (allocated.congr fun g => by omega) rest₂).exact exact
    · obtain ⟨fd1, k₃, slot', rest₃⟩ := bind_ends.mp rest₂
      have held0 : (k₂.proc pid).ofile fd0 = some rf := by
        rw [ofile, Function.update_self]
      rcases first.fdalloc fd1 k₃ slot' with ⟨rfl, rfl⟩ | ⟨fd1, rfl, second, free, ofile'⟩
      · obtain ⟨⟨⟩, k₄, clear, rest₄⟩ := bind_ends.mp rest₃
        obtain ⟨cleared, -⟩ := first.clearFd () k₄ clear
        refine (closeEnds_moves (cleared.congr fun g => ?_) rest₄).exact exact
        rw [held0]
        omega
      · have different : fd0 ≠ fd1 := by
          rintro rfl
          rw [held0] at free
          cases free
        have held0' : (k₃.proc pid).ofile fd0 = some rf := by
          rw [ofile', Function.update_of_ne different, held0]
        have held1 : (k₃.proc pid).ofile fd1 = some wf := by
          rw [ofile', Function.update_self]
        cases copied with
        | true =>
          cases rest₃
          exact (second.congr fun g => by omega).exact exact
        | false =>
          obtain ⟨⟨⟩, k₄, clear, rest₄⟩ := bind_ends.mp rest₃
          obtain ⟨cleared, ofile₄⟩ := second.clearFd () k₄ clear
          obtain ⟨⟨⟩, k₅, clear', rest₅⟩ := bind_ends.mp rest₄
          obtain ⟨cleared', -⟩ := cleared.clearFd () k₅ clear'
          refine (closeEnds_moves (cleared'.congr fun g => ?_) rest₅).exact exact
          rw [ofile₄, Function.update_of_ne different.symm, held0', held1]
          omega

end Calls

/-! ### Runs -/

theorem fileStep_exact {label : FileLabel} (exact : k.FilesExact)
    (step : k.FileStep layer names label k') : k'.FilesExact := by
  obtain ⟨enabled, r, run⟩ := step
  obtain ⟨pid, action⟩ := label
  cases action with
  | other action =>
    cases action with
    | mmap args => exact mmap_exact exact enabled.1.1 run
    | munmap addr length => exact munmap_exact exact enabled.1 run
    | access addr store =>
      obtain ⟨⟨⟩, k₁, run, rest⟩ := bind_ends.mp run
      cases rest
      exact access_exact exact run
    | fork => exact (fork_exact exact enabled.1 r k' run).1
    | exit =>
      obtain ⟨⟨⟩, k₁, run, rest⟩ := bind_ends.mp run
      cases rest
      exact exit_exact exact run
    | reap =>
      obtain ⟨⟨⟩, k₁, run, rest⟩ := bind_ends.mp run
      cases rest
      have zombie : (k.proc pid).state = .zombie := enabled
      refine freeproc_exact exact ?_ run
      rw [zombie]
      exact ProcState.noConfusion
  | «open» args => exact open_exact exact enabled.1 run
  | dup fd => exact dup_exact exact enabled.1 run
  | close fd => exact close_exact exact enabled.1 run
  | pipe copied => exact pipe_exact exact enabled.1 run

/-- No file is open and no region mapped. -/
structure Kernel.NoFiles (k : Kernel Ip σ) : Prop where
  file : ∀ f, (k.file f).ref = 0
  ofile : ∀ q fd, (k.proc q).ofile fd = none
  vma : ∀ q i, ((k.proc q).vma i).used = false

theorem Kernel.NoFiles.exact (boot : k.NoFiles) : k.FilesExact := by
  refine ⟨fun f => ?_, fun q _ => ⟨boot.ofile q, boot.vma q⟩⟩
  have unused : ∀ q, (k.proc q).uses f = 0 := by
    intro q
    have pointer : ∀ i, ((k.proc q).vma i).pointer = none := fun i =>
      if_neg (Bool.eq_false_iff.mp (boot.vma q i))
    simp only [Proc.uses, boot.ofile, pointer, points_none, Finset.sum_const_zero, add_zero]
  simp only [boot.file, unused, Finset.sum_const_zero, add_zero]

/-- **File reference counts are exact.** From a kernel without open files, in every state that any
calls of any processes lead to: the count of every file is the number of descriptors and used regions
that point to it, a file that one points to is not closed, processes that do not run have neither,
and a child that `fork` makes has those of its parent and no others. -/
theorem file_references_exact {start : Kernel Ip σ} {labels : List FileLabel} (boot : start.NoFiles)
    (run : Run (Kernel.FileStep layer names) start labels k) :
    (∀ f, (k.file f).ref = ∑ q, ((∑ fd, points ((k.proc q).ofile fd) f) +
      ∑ i, points ((k.proc q).vma i).pointer f)) ∧
    (∀ f q, (∃ fd, (k.proc q).ofile fd = some f) ∨ (∃ i, ((k.proc q).vma i).pointer = some f) →
      1 ≤ (k.file f).ref) ∧
    (∀ q, (k.proc q).state ≠ .runnable →
      (∀ fd, (k.proc q).ofile fd = none) ∧ ∀ i, ((k.proc q).vma i).used = false) ∧
    ∀ pid r k', (k.proc pid).state = .runnable → fork layer pid k = .ok (r, k') → 0 ≤ r →
      ∃ np : Pid, r = np.val ∧ (k.proc np).state = .unused ∧ ChildOf k k' pid np := by
  have exact : k.FilesExact := run.invariant (fun _ _ _ => fileStep_exact) boot.exact
  refine ⟨fun f => (exact.counted f).trans (add_zero _), fun f q pointed => ?_, exact.idle,
    fun pid r k' running run nonneg => ?_⟩
  · refine exact.counted.positive (fun q f => (k.proc q).uses_nonneg f) (o := q) ?_
    have files : ∀ fd, 0 ≤ points ((k.proc q).ofile fd) f := fun _ => points_nonneg _ _
    have regions : ∀ i, 0 ≤ points ((k.proc q).vma i).pointer f := fun _ => points_nonneg _ _
    rcases pointed with ⟨fd, here⟩ | ⟨i, here⟩
    · refine add_pos_of_pos_of_nonneg (Finset.sum_pos' (fun fd _ => files fd)
        ⟨fd, Finset.mem_univ fd, ?_⟩) (Finset.sum_nonneg fun i _ => regions i)
      rw [here, points_self]
      exact Int.one_pos
    · refine add_pos_of_nonneg_of_pos (Finset.sum_nonneg fun fd _ => files fd)
        (Finset.sum_pos' (fun i _ => regions i) ⟨i, Finset.mem_univ i, ?_⟩)
      rw [here, points_self]
      exact Int.one_pos
  · obtain ⟨-, rfl | child⟩ := fork_exact exact running r k' run
    · omega
    · exact child

/-! ### A small machine -/

/-- Perform an enabled action. -/
def fileNext (layer : FileLayer Ip σ) (names : NameLayer Ip σ) (k : Kernel Ip σ) (label : FileLabel) :
    Option (Kernel Ip σ) :=
  if FileEnabled (k.proc label.pid) label.action then
    (fileExec layer names label.pid label.action k).toOption.map Prod.snd
  else none

theorem fileStep_of_next {label : FileLabel} (next : fileNext layer names k label = some k') :
    k.FileStep layer names label k' := by
  unfold fileNext at next
  split at next
  · next enabled =>
    cases run : fileExec layer names label.pid label.action k with
    | error _ =>
      rw [run] at next
      cases next
    | ok ended =>
      rw [run] at next
      cases next
      exact ⟨enabled, ended.1, run⟩
  · cases next

/-- Every path leads to the one file, and there is room for pipes. -/
def oneName : NameLayer Unit (List UInt8) where
  lookup fs _ _ := (some ⟨(), false, true⟩, fs)
  itrunc _ _ := []
  pipeinit fs := (true, fs)

/-- The small machine with no file open. -/
def bareKernel : Kernel Unit (List UInt8) :=
  { smallKernel .none none with
    proc := fun pid => ((smallKernel .none none).proc pid).setFiles fun _ => none
    file := fun _ => ⟨.none, 0, false, false, none⟩ }

/-- Process 1 opens a file, maps it, duplicates the descriptor, forks, closes, unmaps and makes a
pipe that cannot be copied out; the child exits. -/
def fileSession : List FileLabel :=
  [⟨firstPid, .open ⟨[], O_RDWR⟩⟩, ⟨firstPid, .other (.mmap ⟨4096, 3, 1, 0, 0, none⟩)⟩,
    ⟨firstPid, .dup 0⟩, ⟨firstPid, .other .fork⟩, ⟨firstPid, .close 0⟩,
    ⟨firstPid, .other (.munmap topPage 4096)⟩, ⟨firstPid, .pipe false⟩,
    ⟨⟨2, by decide⟩, .other .exit⟩]

theorem file_references_exact_small : ∃ k, Run (Kernel.FileStep oneFile oneName) bareKernel
    fileSession k ∧ ∀ f, (k.file f).ref = ∑ q, ((∑ fd, points ((k.proc q).ofile fd) f) +
      ∑ i, points ((k.proc q).vma i).pointer f) := by
  have performed : (fileSession.foldlM (fileNext oneFile oneName) bareKernel).isSome := by
    decide +kernel
  obtain ⟨k, reached⟩ := Option.isSome_iff_exists.mp performed
  have run : Run (Kernel.FileStep oneFile oneName) bareKernel fileSession k :=
    Run.of_foldlM (fun _ _ _ => fileStep_of_next) reached
  have boot : bareKernel.NoFiles :=
    ⟨fun _ => rfl, fun _ _ => rfl, smallKernel_noRegions .none none⟩
  exact ⟨k, run, (file_references_exact boot run).1⟩

end Csc3150.Mmap
