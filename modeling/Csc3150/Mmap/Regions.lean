/-
**Mapped regions over whole runs.**

Every region that a process ever has was placed (`placed_of_run`): whole pages between `2^37` and the
trapframe. The regions of a process stay disjoint as long as `sys_mmap` is called on tables and
lengths that are clear of the slots its placement loop does not look at (`regions_apart`); it is not
so otherwise (`regions_overlap`).
-/

import Csc3150.Mmap.Effects

namespace Csc3150.Mmap

open ByteBuffer Transition

variable {Ip σ : Type} {layer : FileLayer Ip σ} {start k k' : Kernel Ip σ} {labels : List Label}

/-- No process has regions. -/
def Kernel.NoRegions (k : Kernel Ip σ) : Prop := ∀ q i, ((k.proc q).vma i).used = false

/-- Every region was placed by `sys_mmap`. -/
structure Kernel.Placed (k : Kernel Ip σ) : Prop where
  idle : k.IdleEmpty
  tables : ∀ q, (k.proc q).vma.Placed

theorem Kernel.NoRegions.placed (boot : k.NoRegions) : k.Placed := by
  refine ⟨fun q i used => ?_, fun q i used => ?_⟩ <;>
  · rw [boot q i] at used
    cases used

theorem step_placed {label : Label} (placed : k.Placed) (step : k.Step layer label k') :
    k'.Placed := by
  have procs := step_procs step
  refine ⟨step_idleEmpty step.1 placed.idle procs, fun q => ?_⟩
  rcases step_tables placed.idle procs q with ⟨p, shrinks⟩ |
    ⟨args, slot, assigned, v, -, place, fresh, -, table⟩
  · exact shrinks.placed (placed.tables p)
  · have places := VmaTable.place_spec (placed.tables q) place
    rw [table]
    exact (placed.tables q).update fun _ => places.placed_new (placed.tables q) fresh

/-- In every reachable state every region was placed. -/
theorem placed_of_run (boot : start.NoRegions) (run : Run (Kernel.Step layer) start labels k) :
    k.Placed :=
  run.invariant (fun _ _ _ => step_placed) boot.placed

/-! ### Disjoint regions -/

/-- `sys_mmap` refuses a request with these arguments and file. -/
def MmapArgs.Refused (args : MmapArgs) (file : Option (File Ip)) : Prop :=
  (PGROUNDUP_int args.length).toInt ≤ 0 ∨ args.offset.toInt < 0 ∨ ∃ f, file = some f ∧
    (args.prot &&& PROT_READ ≠ 0 ∧ f.readable = false ∨
      args.prot &&& PROT_WRITE ≠ 0 ∧ f.writable = false ∧ args.flags &&& MAP_SHARED ≠ 0)

/-- A request of `sys_mmap` is refused, or clear of the slots that the placement loop does not look
at. -/
def ClearRequest (k : Kernel Ip σ) (label : Label) : Prop :=
  ∀ args, label.action = .mmap args →
    args.Refused (((argfd (k.proc label.pid) args.fd).or args.stale).map k.file) ∨
      (k.proc label.pid).vma.Clear (PGROUNDUP_int args.length).toInt.toNat

/-- The regions of every process are disjoint. -/
def Kernel.Apart (k : Kernel Ip σ) : Prop := ∀ q, (k.proc q).vma.Apart

theorem Kernel.NoRegions.apart (boot : k.NoRegions) : k.Apart := by
  intro q i j _ used
  rw [boot q i] at used
  cases used

/-- A refused request is answered with `-1`. -/
theorem sys_mmap_refused {pid : Pid} {args : MmapArgs} {r : Int}
    (refused : args.Refused (((argfd (k.proc pid) args.fd).or args.stale).map k.file))
    (run : sys_mmap pid args k = .ok (r, k')) : r = -1 ∧ k' = k := by
  rw [sys_mmap] at run
  dsimp only at run
  split at run
  · cases run
    exact ⟨rfl, rfl⟩
  · next valid =>
    rcases refused with length | offset | ⟨file, found, denied⟩
    · exact absurd (Or.inl length) valid
    · exact absurd (Or.inr offset) valid
    · split at run
      · cases run
      · next f named =>
        rw [named, Option.map_some, Option.some.injEq] at found
        subst found
        split_ifs at run with unreadable unwritable
        · cases run
          exact ⟨rfl, rfl⟩
        · cases run
          exact ⟨rfl, rfl⟩
        · exact absurd denied (not_or.mpr ⟨unreadable, unwritable⟩)

/-- A successful `sys_mmap` keeps the regions of its process disjoint exactly when its request is
clear. -/
theorem sys_mmap_apart_iff {pid : Pid} {args : MmapArgs} {r : Int} (placed : k.Placed)
    (apart : k.Apart) (run : sys_mmap pid args k = .ok (r, k')) (success : r ≠ -1) :
    k'.Apart ↔ (k.proc pid).vma.Clear (PGROUNDUP_int args.length).toInt.toNat := by
  rcases sys_mmap_ends run with ⟨failed, -⟩ | ⟨f, slot, assigned, v, place, fresh, length, -, -, -, rfl⟩
  · exact absurd failed success
  · have places := VmaTable.place_spec (placed.tables pid) place
    rw [← length, ← Vma.size,
      ← VmaTable.apart_mmap_iff (placed.tables pid) (apart pid) places fresh]
    constructor
    · intro apart'
      have here := apart' pid
      rwa [Kernel.setFile_proc, Kernel.setProc_proc, Function.update_self] at here
    · intro here q
      rw [Kernel.setFile_proc, Kernel.setProc_proc]
      by_cases same : q = pid
      · subst same
        rwa [Function.update_self]
      · rw [Function.update_of_ne same]
        exact apart q

theorem step_apart {label : Label} (placed : k.Placed) (apart : k.Apart)
    (step : k.Step layer label k') (clear : ClearRequest k label) : k'.Apart := by
  intro q
  rcases step_tables placed.idle (step_procs step) q with ⟨p, shrinks⟩ |
    ⟨args, slot, assigned, v, rfl, place, fresh, length, table⟩
  · exact shrinks.apart (apart p)
  · obtain ⟨-, r, run⟩ := step
    rcases clear args rfl with refused | clear
    · obtain ⟨-, rfl⟩ := sys_mmap_refused refused run
      exact apart q
    · have places := VmaTable.place_spec (placed.tables q) place
      rw [table, VmaTable.apart_mmap_iff (placed.tables q) (apart q) places fresh, Vma.size, length]
      exact clear

/-- In every state that clear requests reach, the regions of every process are disjoint. -/
theorem apart_of_run (boot : start.NoRegions)
    (run : Run (fun k label k' => k.Step layer label k' ∧ ClearRequest k label) start labels k) :
    k.Apart := by
  have preserved : ∀ (k : Kernel Ip σ) label k', k.Placed ∧ k.Apart →
      k.Step layer label k' ∧ ClearRequest k label → k'.Placed ∧ k'.Apart :=
    fun _ _ _ holds step =>
      ⟨step_placed holds.1 step.1, step_apart holds.1 holds.2 step.1 step.2⟩
  exact (run.invariant preserved ⟨boot.placed, boot.apart⟩).2

/-- **Mapped regions stay disjoint while every request is clear**, and a successful request that is
not clear makes two of them overlap. -/
theorem regions_apart (boot : start.NoRegions)
    (run : Run (fun k label k' => k.Step layer label k' ∧ ClearRequest k label) start labels k) :
    k.Apart ∧ ∀ pid args r k', sys_mmap pid args k = .ok (r, k') → r ≠ -1 →
      (k'.Apart ↔ (k.proc pid).vma.Clear (PGROUNDUP_int args.length).toInt.toNat) := by
  have placed : k.Placed := placed_of_run boot (run.mono fun _ _ _ => And.left)
  have apart := apart_of_run boot run
  exact ⟨apart, fun pid args r k' call success => sys_mmap_apart_iff placed apart call success⟩

/-! ### A small machine -/

/-- A file system with one file. -/
def oneFile : FileLayer Unit (List UInt8) where
  ref _ _ := 1
  readi file _ off n :=
    let bytes := (file.drop off.toNat).take n.toNat
    (bytes.length, bytes)
  writei file _ off bytes :=
    if file.length < off.toNat then (-1, file)
    else (bytes.length, overwrite file off.toNat bytes)
  idup file _ := file
  iput file _ := file
  pipeclose file _ _ := file

/-- The page table of a new process with its trapframe in frame 9, and the memory left over. -/
def newSpace : Space :=
  match proc_pagetable 9 ⟨⟨List.range' 10 16, [], fun _ _ => 5⟩, .null⟩ with
  | .ok (_, s) => s
  | .error _ => ⟨⟨[], [], fun _ _ => 5⟩, .null⟩

def noVma : Vma := ⟨0, 0, 0, 0, ⟨0, by decide⟩, 0, false⟩

/-- The slot of process 1. -/
def firstPid : Pid := ⟨1, by decide⟩

def firstFile : Fp := ⟨0, by decide⟩

/-- Two processes: `init`, and process 1 with a file of five bytes open for reading and writing. -/
def smallKernel (type : FileType) (ip : Option Unit) : Kernel Unit (List UInt8) where
  proc pid :=
    if pid = firstPid then
      ⟨.runnable, false, 0, some 9, newSpace.table, fun fd => if fd.val = 0 then some firstFile else none,
        some (), fun _ => noVma⟩
    else
      ⟨if pid = initproc then .runnable else .unused, false, 0, none, .null, fun _ => none,
        none, fun _ => noVma⟩
  file f := if f = firstFile then ⟨type, 1, true, true, ip⟩ else ⟨.none, 0, false, false, none⟩
  ram := newSpace.ram
  fs := [104, 101, 108, 108, 111]
  written := []

/-- `mmap` of pages of descriptor 0 by process 1. -/
def mapPagesOf (length prot flags : Int32) : Label :=
  ⟨firstPid, .mmap ⟨length, prot, flags, 0, 0, none⟩⟩

/-- The top page below the trapframe. -/
def topPage : UInt64 := UInt64.ofNat (TRAPFRAME - PGSIZE)

theorem smallKernel_noRegions (type : FileType) (ip : Option Unit) :
    (smallKernel type ip).NoRegions := by
  intro q i
  unfold smallKernel
  dsimp only
  split <;> rfl

/-- No used slot follows a free one. -/
def packed (table : VmaTable) : Bool :=
  decide (∀ i j, i < j → (table i).used = false → (table j).used = false)

theorem clear_of_packed {table : VmaTable} (isPacked : packed table = true) (size : Nat) :
    table.Clear size := by
  intro slot free _ j later used
  rw [of_decide_eq_true isPacked slot j later free] at used
  cases used

/-- Three regions, the last one unmapped and mapped again with another length. -/
theorem regions_apart_small : ∃ k, Run (fun k label k' => k.Step oneFile label k' ∧
      ClearRequest k label) (smallKernel .inode (some ()))
      [mapPagesOf 4096 3 2, mapPagesOf 10000 1 1, ⟨firstPid, .munmap (topPage - 16384) 12288⟩,
        mapPagesOf 5 3 2] k ∧
    k.Apart := by
  have replayed : (replay oneFile (fun k label => packed (k.proc label.pid).vma)
      [mapPagesOf 4096 3 2, mapPagesOf 10000 1 1, ⟨firstPid, .munmap (topPage - 16384) 12288⟩,
        mapPagesOf 5 3 2] (smallKernel .inode (some ()))).any fun k =>
          ((k.proc firstPid).vma ⟨1, by decide⟩).length == 4096 := by
    decide +kernel
  rw [Option.any_eq_true] at replayed
  obtain ⟨k, reached, -⟩ := replayed
  have run := run_of_replay ClearRequest
    (fun k label isPacked args _ => Or.inr (clear_of_packed isPacked _)) reached
  exact ⟨k, run, (regions_apart (smallKernel_noRegions _ _) run).1⟩

/-- **Reusing a slot makes regions overlap.** Two pages are mapped in turn, the first is unmapped, and
three pages are mapped in its slot: the placement loop stops there and puts them over the second. -/
theorem regions_overlap : (smallKernel .inode (some ())).NoRegions ∧
    ∃ k, Run (Kernel.Step oneFile) (smallKernel .inode (some ()))
      [mapPagesOf 4096 3 2, mapPagesOf 4096 3 2, ⟨firstPid, .munmap topPage 4096⟩,
        mapPagesOf 12288 3 2] k ∧
    ¬ k.Apart := by
  refine ⟨smallKernel_noRegions _ _, ?_⟩
  have replayed : (replay oneFile (fun _ _ => true)
      [mapPagesOf 4096 3 2, mapPagesOf 4096 3 2, ⟨firstPid, .munmap topPage 4096⟩,
        mapPagesOf 12288 3 2] (smallKernel .inode (some ()))).any fun k =>
          let table := (k.proc firstPid).vma
          let v := table ⟨0, by decide⟩
          let w := table ⟨1, by decide⟩
          v.used && w.used && decide (v.addr ≤ w.addr ∧ w.addr < v.addr + v.size ∧ 0 < w.size) := by
    decide +kernel
  rw [Option.any_eq_true] at replayed
  obtain ⟨k, reached, overlap⟩ := replayed
  refine ⟨k, (run_of_replay (fun _ _ => True) (fun _ _ _ => trivial) reached).mono
    fun _ _ _ => And.left, fun apart => ?_⟩
  simp only [Bool.and_eq_true, decide_eq_true_eq] at overlap
  obtain ⟨⟨used, used'⟩, above, below, nonempty⟩ := overlap
  have disjoint := apart firstPid _ _ (Fin.ne_of_val_ne Nat.zero_ne_one) used used'
  exact Set.disjoint_left.mp disjoint ⟨above, below⟩ ⟨le_rfl, by omega⟩

end Csc3150.Mmap
