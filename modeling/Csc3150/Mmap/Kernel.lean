/-
**Processes that map files.**

The system calls `mmap`, `munmap`, `fork` and `exit`, the load/store page-fault branch of `usertrap`
and the freeing of a process slot, as programs over a `Kernel`: the process table, the file table,
physical memory and the file system. What `fs.c` and `pipe.c` do is a parameter (`FileLayer`), used
through the functions that this code calls.

* `Kernel.Step` — one action of one process; a panic is no step;
* `Kernel.written` — no data of the kernel: the pages that `sys_munmap` handed to `writei`.
-/

import Csc3150.Library.Transition
import Csc3150.Mmap.PageTable

namespace Csc3150.Mmap

open ByteBuffer Outcome Program Search

def NPROC : Nat := 64

/-- Open files of a process. -/
def NOFILE : Nat := 16

abbrev Pid := Fin NPROC

/-- The process that adopts orphans, in the first slot. -/
def initproc : Pid := ⟨0, Nat.zero_lt_succ _⟩

/-- `FD_NONE`, `FD_PIPE`, `FD_INODE`, `FD_DEVICE`. -/
inductive FileType
  | none
  | pipe
  | inode
  | device
  deriving DecidableEq

/-- `struct file`. Only an inode or a device uses `ip`: `pipealloc` leaves there what an earlier file
left in the slot. -/
structure File (Ip : Type) where
  type : FileType
  ref : Int
  readable : Bool
  writable : Bool
  ip : Option Ip

inductive ProcState
  | unused
  | runnable
  | zombie
  deriving DecidableEq

/-- `struct proc`. -/
structure Proc (Ip : Type) where
  state : ProcState
  killed : Bool
  sz : Nat
  trapframe : Option Nat
  pagetable : PageTable
  ofile : Fin NOFILE → Option Fp
  cwd : Option Ip
  vma : VmaTable

namespace Proc

variable {Ip : Type} (p : Proc Ip)

def setTable (table : PageTable) : Proc Ip := { p with pagetable := table }

def setVma (vma : VmaTable) : Proc Ip := { p with vma := vma }

def setFiles (ofile : Fin NOFILE → Option Fp) : Proc Ip := { p with ofile := ofile }

variable (table table' : PageTable) (vma vma' : VmaTable) (ofile ofile' : Fin NOFILE → Option Fp)

@[simp] theorem setTable_state : (p.setTable table).state = p.state := rfl
@[simp] theorem setTable_sz : (p.setTable table).sz = p.sz := rfl
@[simp] theorem setTable_trapframe : (p.setTable table).trapframe = p.trapframe := rfl
@[simp] theorem setTable_pagetable : (p.setTable table).pagetable = table := rfl
@[simp] theorem setTable_vma : (p.setTable table).vma = p.vma := rfl
@[simp] theorem setTable_self : p.setTable p.pagetable = p := rfl
@[simp] theorem setTable_setTable : (p.setTable table).setTable table' = p.setTable table' := rfl
@[simp] theorem setVma_state : (p.setVma vma).state = p.state := rfl
@[simp] theorem setVma_sz : (p.setVma vma).sz = p.sz := rfl
@[simp] theorem setVma_trapframe : (p.setVma vma).trapframe = p.trapframe := rfl
@[simp] theorem setVma_pagetable : (p.setVma vma).pagetable = p.pagetable := rfl
@[simp] theorem setVma_vma : (p.setVma vma).vma = vma := rfl
@[simp] theorem setVma_self : p.setVma p.vma = p := rfl
@[simp] theorem setVma_setVma : (p.setVma vma).setVma vma' = p.setVma vma' := rfl
@[simp] theorem setFiles_state : (p.setFiles ofile).state = p.state := rfl
@[simp] theorem setFiles_sz : (p.setFiles ofile).sz = p.sz := rfl
@[simp] theorem setFiles_trapframe : (p.setFiles ofile).trapframe = p.trapframe := rfl
@[simp] theorem setFiles_pagetable : (p.setFiles ofile).pagetable = p.pagetable := rfl
@[simp] theorem setFiles_vma : (p.setFiles ofile).vma = p.vma := rfl
@[simp] theorem setFiles_ofile : (p.setFiles ofile).ofile = ofile := rfl
@[simp] theorem setFiles_self : p.setFiles p.ofile = p := rfl
@[simp] theorem setFiles_setFiles : (p.setFiles ofile).setFiles ofile' = p.setFiles ofile' := rfl

end Proc

/-- The functions of the file system and of pipes that the process code calls. `ref` is the count of
references to an in-memory inode, `readi` copies to kernel memory and `writei` takes its bytes from a
resident user page. A pipe and the page that holds it belong to `σ`. -/
structure FileLayer (Ip σ : Type) where
  ref : σ → Ip → Int
  readi : σ → Ip → (off n : UInt32) → Int × List UInt8
  writei : σ → Ip → (off : UInt32) → List UInt8 → Int × σ
  idup : σ → Ip → σ
  iput : σ → Ip → σ
  pipeclose : σ → Fp → (writable : Bool) → σ

/-- A page that `sys_munmap` wrote back. -/
structure Writeback (Ip : Type) where
  ip : Ip
  vpn : Nat
  off : UInt32

structure Kernel (Ip σ : Type) where
  proc : Pid → Proc Ip
  file : Fp → File Ip
  ram : Ram
  fs : σ
  written : List (Writeback Ip)

/-- A kernel path of a process. -/
abbrev KProg (Ip σ α : Type) := Prog Panic (Kernel Ip σ) α

variable {Ip σ α : Type}

namespace Kernel

def setProc (k : Kernel Ip σ) (pid : Pid) (p : Proc Ip) : Kernel Ip σ :=
  { k with proc := Function.update k.proc pid p }

def setFile (k : Kernel Ip σ) (f : Fp) (file : File Ip) : Kernel Ip σ :=
  { k with file := Function.update k.file f file }

/-- The memory and the page table of a process. -/
def space (k : Kernel Ip σ) (pid : Pid) : Space := ⟨k.ram, (k.proc pid).pagetable⟩

def setSpace (k : Kernel Ip σ) (pid : Pid) (s : Space) : Kernel Ip σ :=
  { k.setProc pid ((k.proc pid).setTable s.table) with ram := s.ram }

end Kernel

/-- Run a function of `vm.c` on the page table of a process. -/
def inSpace (pid : Pid) (x : VmProg α) : KProg Ip σ α := fun k => do
  let (a, s) ← x (k.space pid)
  return (a, k.setSpace pid s)

/-- Change a process. -/
def modifyProc (pid : Pid) (change : Proc Ip → Proc Ip) : KProg Ip σ Unit := fun k =>
  .ok ((), k.setProc pid (change (k.proc pid)))

/-! ### Files -/

/-- Increment the reference count of a file. -/
def filedup (f : Fp) : KProg Ip σ Unit := fun k =>
  let file := k.file f
  if file.ref < 1 then .error .filedup
  else .ok ((), k.setFile f { file with ref := file.ref + 1 })

/-- Drop a reference to a file; close it with the last one. -/
def fileclose (layer : FileLayer Ip σ) (f : Fp) : KProg Ip σ Unit := fun k =>
  let file := k.file f
  if file.ref < 1 then .error .fileclose
  else if 0 < file.ref - 1 then .ok ((), k.setFile f { file with ref := file.ref - 1 })
  else
    let k := k.setFile f { file with ref := 0, type := .none }
    match file.type, file.ip with
    | .pipe, _ => .ok ((), { k with fs := layer.pipeclose k.fs f file.writable })
    | .none, _ => .ok ((), k)
    | _, some ip => .ok ((), { k with fs := layer.iput k.fs ip })
    | _, none => .error .wildPointer

/-- The open file of a descriptor. -/
def argfd (p : Proc Ip) (fd : Int32) : Option Fp :=
  if inside : 0 ≤ fd.toInt ∧ fd.toInt < NOFILE then p.ofile ⟨fd.toInt.toNat, by omega⟩ else none

/-- Lock an inode: it must exist and be referenced. -/
def ilock (layer : FileLayer Ip σ) (fs : σ) : Option Ip → Except Panic Ip
  | none => .error .ilock
  | some ip => if layer.ref fs ip < 1 then .error .ilock else .ok ip

theorem ilock_eq_ok {layer : FileLayer Ip σ} {fs : σ} {found : Option Ip} {ip : Ip} :
    ilock layer fs found = .ok ip ↔ found = some ip ∧ 1 ≤ layer.ref fs ip := by
  cases found with
  | none => exact ⟨nofun, nofun⟩
  | some other =>
    rw [ilock]
    split
    · next unreferenced =>
      refine ⟨nofun, fun both => ?_⟩
      cases both.1
      exact absurd unreferenced (not_lt.mpr both.2)
    · next referenced =>
      constructor
      · intro same
        cases same
        exact ⟨rfl, not_lt.mp referenced⟩
      · rintro ⟨same, -⟩
        cases same
        rfl

/-- An inode that does not exist or is not referenced makes `ilock` panic. -/
theorem ilock_eq_error {layer : FileLayer Ip σ} {fs : σ} {found : Option Ip}
    (absent : ¬ ∃ ip, found = some ip ∧ 1 ≤ layer.ref fs ip) :
    ilock layer fs found = .error .ilock := by
  cases found with
  | none => rfl
  | some ip => exact if_pos (not_le.mp fun referenced => absent ⟨ip, rfl, referenced⟩)

/-! ### `sys_mmap` and `sys_munmap` -/

/-- The arguments of `mmap` that are used (`addr` is not). When `fd` is no open descriptor the
variable `f` stays uninitialised: `stale` is the table entry it then points to, if any. -/
structure MmapArgs where
  length : Int32
  prot : Int32
  flags : Int32
  fd : Int32
  offset : Int32
  stale : Option Fp

def sys_mmap (pid : Pid) (args : MmapArgs) : KProg Ip σ Int := fun k =>
  let p := k.proc pid
  let length := PGROUNDUP_int args.length
  if length.toInt ≤ 0 ∨ args.offset.toInt < 0 then .ok (-1, k)
  else
    match (argfd p args.fd).or args.stale with
    | none => .error .wildPointer
    | some f =>
      if args.prot &&& PROT_READ ≠ 0 ∧ (k.file f).readable = false then .ok (-1, k)
      else if args.prot &&& PROT_WRITE ≠ 0 ∧ (k.file f).writable = false ∧
          args.flags &&& MAP_SHARED ≠ 0 then .ok (-1, k)
      else
        match VmaTable.place p.vma with
        | (none, _) => .error .syscallMmap
        | (some slot, assigned) => do
          let addr := word (assigned - (PGROUNDUP_int length).toInt)
          let v : Vma := ⟨addr, length, args.prot, args.flags, f, args.offset, true⟩
          let k := k.setProc pid (p.setVma (Function.update p.vma slot v))
          let ((), k) ← filedup f k
          return ((addr : Int), k)

/-- The file offset of the byte of a region at an address, as passed to `readi` and `writei`. -/
def Vma.fileOffset (v : Vma) (a : Nat) : UInt32 := UInt32.ofInt (v.offset.toInt + (a - v.addr))

/-- The write-back loop of `sys_munmap` over the pages that are left. -/
def writeback (layer : FileLayer Ip σ) (pid : Pid) (v : Vma) (ip : Ip) : List Nat → KProg Ip σ Bool
  | [] => pure true
  | vpn :: rest => fun k =>
    match (k.proc pid).pagetable.walkaddr (vpn * PGSIZE) with
    | none => writeback layer pid v ip rest k
    | some pte =>
      let off := v.fileOffset (vpn * PGSIZE)
      let (r, fs) := layer.writei k.fs ip off (read (k.ram.page pte.frame) 0 PGSIZE)
      let k := { k with fs := fs, written := ⟨ip, vpn, off⟩ :: k.written }
      if r < 0 then .ok (false, k) else writeback layer pid v ip rest k

/-- A region whose slot is free. -/
def Vma.free (v : Vma) : Vma := { v with used := false }

@[simp] theorem Vma.free_used (v : Vma) : v.free.used = false := rfl

theorem Vma.free_of_unused {v : Vma} (unused : ¬ v.used = true) : v.free = v := by
  have same : v.used = false := Bool.eq_false_iff.mpr unused
  rw [Vma.free, ← same]

/-- Free the slot of a region and drop its file. -/
def closeVma (layer : FileLayer Ip σ) (pid : Pid) (i : Fin VMASIZE) : KProg Ip σ Unit := fun k => do
  let ((), k) ← fileclose layer ((k.proc pid).vma i).file k
  modifyProc pid (fun p => p.setVma (Function.update p.vma i (p.vma i).free)) k

/-- The first page boundary of a `munmap` request, and the one after its end. -/
def munmapRange (addr : Nat) (length : Int32) : Nat × Nat :=
  (PGROUNDDOWN addr, PGROUNDUP (word (addr + length.toInt)))

def sys_munmap (layer : FileLayer Ip σ) (pid : Pid) (addr : Nat) (length : Int32) : KProg Ip σ Int :=
  fun k =>
  match VmaTable.find (k.proc pid).vma addr with
  | none => .ok (-1, k)
  | some i =>
    let v := (k.proc pid).vma i
    let (start, stop) := munmapRange addr length
    let unmap : KProg Ip σ Int := do
      inSpace pid (uvmunmap start (word (stop - start) / PGSIZE) (!v.isShared))
      if start = v.addr ∧ stop = v.limit then closeVma layer pid i
      return 0
    if v.isShared && v.isWritable then do
      let ip ← ilock layer k.fs (k.file v.file).ip
      let (accepted, k) ← writeback layer pid v ip (pagesBetween start stop) k
      if accepted then unmap k else return (-1, k)
    else unmap k

/-! ### Page faults -/

/-- `setkilled`. -/
def setkilled (pid : Pid) : KProg Ip σ Unit := modifyProc pid fun p => { p with killed := true }

/-- The entry that a page fault makes for a page of a region. -/
def Vma.entry (v : Vma) (frame : Nat) : Pte :=
  ⟨frame, v.isReadable, v.isWritable, v.isExecutable, true⟩

/-- A page of zeros over whose start `bytes` were read. -/
def pageOf (bytes : List UInt8) : Buffer := fun k => bytes.getD k 0

/-- `kalloc` in the page-fault branch: the page is lent to the process. -/
def lend : VmProg (Option Nat) := do
  match ← kalloc with
  | none => return none
  | some frame =>
    fun s => .ok ((), { s with ram := { s.ram with lent := frame :: s.ram.lent } })
    return some frame

/-- The load/store page-fault branch of `usertrap`. -/
def pageFault (layer : FileLayer Ip σ) (pid : Pid) (addr : Nat) : KProg Ip σ Unit := fun k =>
  match VmaTable.find (k.proc pid).vma addr with
  | none => .error .noMatchingVma
  | some i =>
    let v := (k.proc pid).vma i
    do
    let (usable_addr, k) ← inSpace pid lend k
    match usable_addr with
    | none => setkilled pid k
    | some frame =>
      let ip ← ilock layer k.fs (k.file v.file).ip
      let (r, bytes) := layer.readi k.fs ip (v.fileOffset addr) (UInt32.ofNat PGSIZE)
      let k := { k with ram := k.ram.fill frame (pageOf bytes) }
      if r < 0 then
        let ((), k) ← inSpace pid (kfree frame) k
        setkilled pid k
      else
        let (mapped, k) ← inSpace pid (mappages addr PGSIZE (v.entry frame)) k
        if mapped then return ((), k)
        else
          let ((), k) ← inSpace pid (kfree frame) k
          setkilled pid k

/-- The hardware lets a user access through an entry. -/
def Pte.permits (pte : Pte) (store : Bool) : Bool := pte.u && pte.r && (!store || pte.w)

/-- A load from an address, or a store of a byte to it; where no entry permits it, a page fault. -/
def access (layer : FileLayer Ip σ) (pid : Pid) (addr : Nat) (store : Option UInt8) :
    KProg Ip σ Unit := fun k =>
  match (k.proc pid).pagetable.leaf (addr / PGSIZE) with
  | none => pageFault layer pid addr k
  | some pte =>
    if pte.permits store.isSome then
      match store with
      | none => .ok ((), k)
      | some byte =>
        let page := Function.update (k.ram.page pte.frame) (addr % PGSIZE) byte
        .ok ((), { k with ram := k.ram.fill pte.frame page })
    else pageFault layer pid addr k

/-! ### `fork`, `exit` and the freeing of a slot -/

/-- Free the page table and the trapframe of a process and mark its slot unused. -/
def freeproc (pid : Pid) : KProg Ip σ Unit := fun k => do
  let p := k.proc pid
  let ((), k) ← (match p.trapframe with
    | some frame => inSpace pid (kfree frame) k
    | none => .ok ((), k))
  let ((), k) ← (if p.pagetable.pages = [] then .ok ((), k)
    else inSpace pid (proc_freepagetable p.sz) k)
  modifyProc pid (fun p => { p with
    trapframe := none, pagetable := .null, sz := 0, killed := false, state := .unused }) k

/-- Take an unused slot and give it a trapframe and an empty page table. -/
def allocproc : KProg Ip σ (Option Pid) := fun k =>
  match searchFin fun np => if (k.proc np).state = .unused then some np else none with
  | none => .ok (none, k)
  | some np => do
    let (trapframe, k) ← inSpace np kalloc k
    match trapframe with
    | none =>
      let ((), k) ← freeproc np k
      return (none, k)
    | some frame =>
      let ((), k) ← modifyProc np (fun p => { p with trapframe := some frame }) k
      let (made, k) ← inSpace np (proc_pagetable frame) k
      if made then return (some np, k)
      else
        let ((), k) ← freeproc np k
        return (none, k)

/-- Share a descriptor of the parent with the child. -/
def forkFile (pid np : Pid) (i : Fin NOFILE) : KProg Ip σ Unit := fun k =>
  match (k.proc pid).ofile i with
  | none => .ok ((), k)
  | some f => do
    let ((), k) ← filedup f k
    modifyProc np (fun p => p.setFiles (Function.update p.ofile i (some f))) k

/-- Copy a used region of the parent to the child. -/
def forkVma (pid np : Pid) (i : Fin VMASIZE) : KProg Ip σ Unit := fun k =>
  let v := (k.proc pid).vma i
  if v.used then do
    let ((), k) ← modifyProc np (fun p => p.setVma (Function.update p.vma i v)) k
    filedup v.file k
  else .ok ((), k)

def fork (layer : FileLayer Ip σ) (pid : Pid) : KProg Ip σ Int := do
  match ← allocproc with
  | none => return -1
  | some np =>
    let copied ← fun k => inSpace np (uvmcopy (k.proc pid).pagetable (k.proc pid).sz) k
    if copied then
      fun k => modifyProc np (fun p => { p with sz := (k.proc pid).sz }) k
      (List.finRange NOFILE).forM (forkFile pid np)
      fun k =>
        let cwd := (k.proc pid).cwd
        modifyProc np (fun p => { p with cwd := cwd })
          { k with fs := cwd.elim k.fs (layer.idup k.fs) }
      (List.finRange VMASIZE).forM (forkVma pid np)
      modifyProc np fun p => { p with state := .runnable }
      return np.val
    else
      freeproc np
      return -1

/-- Close a descriptor of a process that exits. -/
def exitFile (layer : FileLayer Ip σ) (pid : Pid) (i : Fin NOFILE) : KProg Ip σ Unit := fun k =>
  match (k.proc pid).ofile i with
  | none => .ok ((), k)
  | some f => do
    let ((), k) ← fileclose layer f k
    modifyProc pid (fun p => p.setFiles (Function.update p.ofile i none)) k

/-- Unmap a region of a process that exits; dirty pages are not written back. -/
def exitVma (layer : FileLayer Ip σ) (pid : Pid) (i : Fin VMASIZE) : KProg Ip σ Unit := fun k =>
  let v := (k.proc pid).vma i
  if v.used then do
    let npages := word ((PGROUNDUP_int v.length).toInt.tdiv PGSIZE)
    let ((), k) ← inSpace pid (uvmunmap v.addr npages (!v.isShared)) k
    closeVma layer pid i k
  else .ok ((), k)

def exit (layer : FileLayer Ip σ) (pid : Pid) : KProg Ip σ Unit :=
  if pid = initproc then throw .initExiting
  else do
    (List.finRange NOFILE).forM (exitFile layer pid)
    (List.finRange VMASIZE).forM (exitVma layer pid)
    fun k => modifyProc pid (fun p => { p with cwd := none, state := .zombie })
      { k with fs := (k.proc pid).cwd.elim k.fs (layer.iput k.fs) }

/-! ### Actions -/

/-- What a process can do, and `reap`, by which its parent frees it. -/
inductive Action
  | mmap (args : MmapArgs)
  | munmap (addr : UInt64) (length : Int32)
  | access (addr : UInt64) (store : Option UInt8)
  | fork
  | exit
  | reap

/-- An action of a process. -/
structure Label where
  pid : Pid
  action : Action

/-- A process whose `killed` flag is set goes straight to `exit`. -/
def Enabled (p : Proc Ip) : Action → Prop
  | .reap => p.state = .zombie
  | .exit => p.state = .runnable
  | _ => p.state = .runnable ∧ p.killed = false

instance (p : Proc Ip) (action : Action) : Decidable (Enabled p action) := by
  cases action <;> unfold Enabled <;> infer_instance

/-- The result of an action, `0` where it has none. -/
def exec (layer : FileLayer Ip σ) (pid : Pid) : Action → KProg Ip σ Int
  | .mmap args => sys_mmap pid args
  | .munmap addr length => sys_munmap layer pid addr.toNat length
  | .access addr store => do
    access layer pid addr.toNat store
    return 0
  | .fork => fork layer pid
  | .exit => do
    exit layer pid
    return 0
  | .reap => do
    freeproc pid
    return 0

/-- An action that is enabled and ends. -/
def Kernel.Step (layer : FileLayer Ip σ) (k : Kernel Ip σ) (label : Label) (k' : Kernel Ip σ) : Prop :=
  Enabled (k.proc label.pid) label.action ∧
    ∃ r, exec layer label.pid label.action k = .ok (r, k')

/-- A call ends and returns `0`. -/
def returnsZero : Except Panic (Int × Kernel Ip σ) → Bool
  | .ok (r, _) => r == 0
  | .error _ => false

theorem ends_of_returnsZero {result : Except Panic (Int × Kernel Ip σ)}
    (zero : returnsZero result = true) : ∃ k', result = .ok (0, k') := by
  unfold returnsZero at zero
  split at zero
  · next r k' => exact ⟨k', by rw [eq_of_beq zero]⟩
  · cases zero

/-- Perform enabled actions in order, as long as they end and pass a check. -/
def replay (layer : FileLayer Ip σ) (check : Kernel Ip σ → Label → Bool) :
    List Label → Kernel Ip σ → Option (Kernel Ip σ)
  | [], k => some k
  | label :: rest, k =>
    if Enabled (k.proc label.pid) label.action ∧ check k label = true then
      match exec layer label.pid label.action k with
      | .ok (_, k') => replay layer check rest k'
      | .error _ => none
    else none

theorem run_of_replay {layer : FileLayer Ip σ} {check : Kernel Ip σ → Label → Bool}
    (allowed : Kernel Ip σ → Label → Prop) (sound : ∀ k label, check k label = true → allowed k label)
    {labels : List Label} {k k' : Kernel Ip σ} (replayed : replay layer check labels k = some k') :
    Transition.Run (fun k label k' => k.Step layer label k' ∧ allowed k label) k labels k' := by
  induction labels generalizing k with
  | nil =>
    cases replayed
    exact .nil _
  | cons label rest ih =>
    rw [replay] at replayed
    split_ifs at replayed with enabled
    split at replayed
    · next r middle run =>
      exact .cons ⟨⟨enabled.1, r, run⟩, sound _ _ enabled.2⟩ (ih replayed)
    · cases replayed

end Csc3150.Mmap
