/-
**The transaction of `munmap`.**

`sys_munmap` writes every resident page of a shared mapping back between one `begin_op` and `end_op`.

* `writeback_eq` — the write-back is a run of writes;
* `munmap_fits` — when its blocks fit in the space that `begin_op` reserves.
-/

import Csc3150.FileSystem.LogSpace
import Csc3150.FileSystem.PartialWrite
import Csc3150.FileSystem.WriteRuns
import Csc3150.Mmap.SharedWrites

namespace Csc3150.Mmap

open ByteBuffer FileSystem Outcome Program Search Transition

variable {Ip σ : Type} {layer : FileLayer Ip σ} {k : Kernel Ip σ} {pid : Pid} {addr : Nat}
  {length : Int32} {i : Fin VMASIZE} {v : Vma} {ip : Ip} {sb : Superblock} {view : σ → Opened}

/-- Writing to the inode `ip` is `writei` on a disk. -/
structure WritesDisk (layer : FileLayer Ip σ) (ip : Ip) (sb : Superblock) (view : σ → Opened) :
    Prop where
  result : ∀ fs off bytes, (layer.writei fs ip off bytes).1 = ((view fs).writei sb off bytes).1
  state : ∀ fs off bytes, view (layer.writei fs ip off bytes).2 = ((view fs).writei sb off bytes).2

/-- The resident pages of a range, with their file offsets. -/
def Kernel.residentPages (k : Kernel Ip σ) (pid : Pid) (v : Vma) (vpns : List Nat) :
    List (UInt32 × List UInt8) :=
  vpns.filterMap fun vpn => (k.resident pid vpn).map fun pte =>
    (v.fileOffset (vpn * PGSIZE), read (k.ram.page pte.frame) 0 PGSIZE)

/-- The file offsets of the resident pages of a range of addresses. -/
def Kernel.residentOffsets (k : Kernel Ip σ) (pid : Pid) (v : Vma) (range : Nat × Nat) : List UInt32 :=
  (k.residentPages pid v (pagesBetween range.1 range.2)).map Prod.fst

/-- The number of blocks that unmapping a range of a region logs. -/
noncomputable def Kernel.munmapSpace (sb : Superblock) (view : σ → Opened) (k : Kernel Ip σ) (pid : Pid)
    (i : Fin VMASIZE) (range : Nat × Nat) : Nat :=
  (view k.fs).logSpace sb (UInt32.ofNat PGSIZE) (k.residentOffsets pid ((k.proc pid).vma i) range)

/-- The disk has enough free blocks to unmap a range of a region. -/
def Kernel.MunmapRoom (sb : Superblock) (view : σ → Opened) (k : Kernel Ip σ) (pid : Pid)
    (i : Fin VMASIZE) (range : Nat × Nat) : Prop :=
  (view k.fs).Room sb (UInt32.ofNat PGSIZE) (k.residentOffsets pid ((k.proc pid).vma i) range)

theorem residentPages_whole {vpns : List Nat} :
    ∀ page ∈ k.residentPages pid v vpns, page.2.length = (UInt32.ofNat PGSIZE).toNat := by
  intro page member
  obtain ⟨vpn, -, isPage⟩ := List.mem_filterMap.mp member
  obtain ⟨pte, -, rfl⟩ := Option.map_eq_some_iff.mp isPage
  rw [read_length]
  rfl

/-- The write-back is a run of writes of the resident pages. -/
theorem writeback_eq (writes : WritesDisk layer ip sb view) (vpns : List Nat) (k : Kernel Ip σ) :
    ∃ k', writeback layer pid v ip vpns k =
        .ok (((view k.fs).writeAll sb (k.residentPages pid v vpns)).1, k') ∧
      view k'.fs = ((view k.fs).writeAll sb (k.residentPages pid v vpns)).2 := by
  induction vpns generalizing k with
  | nil => exact ⟨k, rfl, rfl⟩
  | cons vpn rest ih =>
    cases present : k.resident pid vpn with
    | none =>
      have same : k.residentPages pid v (vpn :: rest) = k.residentPages pid v rest :=
        List.filterMap_cons_none (by rw [present]; rfl)
      rw [writeback_absent present, same]
      exact ih k
    | some pte =>
      have same : k.residentPages pid v (vpn :: rest) = (v.fileOffset (vpn * PGSIZE),
          read (k.ram.page pte.frame) 0 PGSIZE) :: k.residentPages pid v rest :=
        List.filterMap_cons_some (by rw [present]; rfl)
      obtain ⟨r, fs, result⟩ : ∃ r fs, layer.writei k.fs ip (v.fileOffset (vpn * PGSIZE))
        (read (k.ram.page pte.frame) 0 PGSIZE) = (r, fs) := ⟨_, _, rfl⟩
      have returned := writes.result k.fs (v.fileOffset (vpn * PGSIZE))
        (read (k.ram.page pte.frame) 0 PGSIZE)
      have state := writes.state k.fs (v.fileOffset (vpn * PGSIZE))
        (read (k.ram.page pte.frame) 0 PGSIZE)
      rw [result] at returned state
      rw [same, Opened.writeAll]
      dsimp only at returned state ⊢
      rw [← returned, ← state]
      by_cases negative : r < 0
      · rw [if_pos negative]
        refine ⟨{ k with fs := fs, written := ⟨ip, vpn, v.fileOffset (vpn * PGSIZE)⟩ :: k.written },
          ?_, rfl⟩
        rw [Kernel.resident] at present
        rw [writeback]
        simp only [present, result]
        exact if_pos negative
      · rw [writeback_accepted present result (not_lt.mp negative), if_neg negative]
        exact ih _

/-- **The transaction of `munmap`.** The blocks that a call logs before `end_op` fit in the space that
`begin_op` reserves when at most that many are needed, and, unless the disk runs out of blocks, only
then. -/
theorem munmap_fits (writes : WritesDisk layer ip sb view) (image : Image sb (view k.fs).disk)
    (cached : Cached sb (view k.fs).disk (view k.fs).inode) (fresh : (view k.fs).log = [])
    (found : VmaTable.find (k.proc pid).vma addr = some i)
    (shared : ((k.proc pid).vma i).isShared = true)
    (writable : ((k.proc pid).vma i).isWritable = true)
    (inode : (k.file ((k.proc pid).vma i).file).ip = some ip) :
    ∃ accepted k', writeback layer pid ((k.proc pid).vma i) ip
        (pagesBetween (munmapRange addr length).1 (munmapRange addr length).2) k = .ok (accepted, k') ∧
      sys_munmap layer pid addr length k = (if layer.ref k.fs ip < 1 then .error .ilock
        else if accepted then
          unmapRange layer pid i ((k.proc pid).vma i) (munmapRange addr length) k'
        else .ok (-1, k')) ∧
      (k.munmapSpace sb view pid i (munmapRange addr length) ≤ MAXOPBLOCKS →
        (view k'.fs).log.toFinset.card ≤ MAXOPBLOCKS) ∧
      (k.MunmapRoom sb view pid i (munmapRange addr length) →
        ((view k'.fs).log.toFinset.card ≤ MAXOPBLOCKS ↔
          k.munmapSpace sb view pid i (munmapRange addr length) ≤ MAXOPBLOCKS)) := by
  obtain ⟨k', run, state⟩ := writeback_eq writes
    (pagesBetween (munmapRange addr length).1 (munmapRange addr length).2) k
  refine ⟨_, k', run, ?_, ?_⟩
  · rw [sys_munmap_shared found shared writable inode, bind_of_ok run]
  · rw [state]
    exact Opened.writeAll_fits image cached fresh residentPages_whole

/-! ### Mapping and paging in -/

/-- The actions that map a file or touch memory. -/
def Action.Calm : Action → Prop
  | .mmap _ | .access _ _ => True
  | _ => False

instance (action : Action) : Decidable action.Calm :=
  match action with
  | .mmap _ | .access _ _ => .isTrue trivial
  | .munmap _ _ | .fork | .exit | .reap => .isFalse id

/-- Mapping a file and paging it in leaves the file system alone. -/
theorem calm_step {k' : Kernel Ip σ} {label : Label} (calm : label.action.Calm)
    (step : k.Step layer label k') : k'.fs = k.fs := by
  obtain ⟨-, r, run⟩ := step
  obtain ⟨pid, action⟩ := label
  cases action with
  | mmap args =>
    rcases sys_mmap_ends run with ⟨-, rfl⟩ | ⟨f, slot, assigned, v, -, -, -, -, -, -, rfl⟩
    · rfl
    · rfl
  | access a store =>
    obtain ⟨⟨⟨⟩, middle⟩, first, rest⟩ := bind_eq_ok.mp run
    obtain ⟨table, killed, ram, rfl⟩ := access_ends first
    cases rest
    rfl
  | munmap _ _ => exact calm.elim
  | fork => exact calm.elim
  | exit => exact calm.elim
  | reap => exact calm.elim

theorem calm_run {start : Kernel Ip σ} {labels : List Label} (calm : ∀ label ∈ labels, label.action.Calm)
    (run : Run (Kernel.Step layer) start labels k) : k.fs = start.fs := by
  induction run with
  | nil => rfl
  | cons first _ ih =>
    have same := calm_step (calm _ List.mem_cons_self) first
    exact (ih fun label member => calm label (.tail _ member)).trans same

/-! ### A small disk -/

/-- The operations on one file of a disk; reading a file without holes changes nothing. -/
def diskLayer (sb : Superblock) : FileLayer Unit Opened where
  ref o _ := o.inode.ref
  readi o _ off n :=
    match FileSystem.readi sb o.disk o.inode (fun _ _ => false) off n with
    | .ok result => (result.2.2.1, result.2.2.2)
    | .error _ => (-1, [])
  writei o _ off bytes := o.writei sb off bytes
  idup o _ := o
  iput o _ := o
  pipeclose o _ _ := o

theorem diskLayer_writes (sb : Superblock) : WritesDisk (diskLayer sb) () sb id where
  result _ _ _ := rfl
  state _ _ _ := rfl

/-- The layout of `smallSuperblock` with twenty data blocks. -/
def wideSuperblock : Superblock := { smallSuperblock with size := 24, nblocks := 20 }

/-- The small machine, with the empty file of the small disk open. -/
def diskKernel : Kernel Unit Opened where
  proc := (smallKernel .inode (some ())).proc
  file := (smallKernel .inode (some ())).file
  ram := (smallKernel .inode (some ())).ram
  fs := ⟨smallDisk 0, smallInode, []⟩
  written := []

theorem marked_wide {b : Nat} (small : b < 24) :
    marked wideSuperblock (smallDisk 0) b = decide (b < 4) := by
  have bitmap : smallDisk 0 3 = fun i => if 3 = 3 ∧ i = 0 then 15 else 0 := by
    rw [smallDisk, writeDinode, logWrite_of_ne _ _ (by decide)]
  have place : BBLOCK b wideSuperblock = 3 := by
    interval_cases b <;> decide
  rw [marked, place, bitmap]
  interval_cases b <;> decide

theorem wideSuperblock_wellFormed : wideSuperblock.WellFormed := by
  refine ⟨smallSuperblock_wellFormed.inodes_below, fun b inside => ?_, by decide⟩
  have small : b < 24 := inside
  interval_cases b <;> decide

theorem image_wide : Image wideSuperblock (smallDisk 0) := by
  refine ⟨wideSuperblock_wellFormed, blocksExact_iff.mp ?_, noHoles_smallDisk⟩
  have unreferenced : ∀ n slot, InUse wideSuperblock (dinode wideSuperblock (smallDisk 0)) n →
      pointer (smallDisk 0) (dinode wideSuperblock (smallDisk 0) n).addrs slot = 0 := by
    intro n slot inUse
    have isFile : n = 1 := inUse_small inUse
    have zero : dinode wideSuperblock (smallDisk 0) 1 = _ := dinode_smallDisk (Nat.two_pow_pos 32)
    rw [isFile, zero]
    exact pointer_zero _ _
  refine ⟨fun b metadata => ?_, fun n slot inUse nonzero => ?_,
    fun n slot _ _ inUse _ nonzero _ => ?_, fun b lower upper => ?_⟩
  · have small : b < 4 := metadata
    rw [marked_wide (by omega), decide_eq_true small]
  · exact absurd (unreferenced n slot inUse) nonzero
  · exact absurd (unreferenced n slot inUse) nonzero
  · have small : b < 24 := upper
    have large : 4 ≤ b := lower
    rw [marked_wide small, decide_eq_true_eq]
    refine ⟨fun less => by omega, fun ⟨n, slot, inUse, nonzero, holds⟩ => ?_⟩
    rw [unreferenced n slot inUse] at holds
    exact absurd holds.symm nonzero

/-- Map three pages of the file shared and load a byte of each. -/
def loadThreePages : List Label :=
  [mapPagesOf 12288 3 1, ⟨firstPid, .access topPage none⟩, ⟨firstPid, .access (topPage - 4096) none⟩,
    ⟨firstPid, .access (topPage - 8192) none⟩]

theorem cached_wide : Cached wideSuperblock (smallDisk 0) smallInode :=
  ⟨cached_smallInode.inUse, cached_smallInode.same⟩

/-- The file of `diskKernel` after these bytes were written to it. -/
def fileOf (bytes : List UInt8) : Opened :=
  { (diskKernel.fs.writei wideSuperblock 0 bytes).2 with log := [] }

theorem fileOf_image {bytes : List UInt8} (small : bytes.length ≤ MAXFILE * BSIZE) :
    Image wideSuperblock (fileOf bytes).disk ∧
      Cached wideSuperblock (fileOf bytes).disk (fileOf bytes).inode := by
  have total : MAXFILE * BSIZE < 2 ^ 32 := by decide
  have count : (UInt32.ofNat bytes.length).toNat = bytes.length :=
    UInt32.toNat_ofNat_of_lt' (small.trans_lt total)
  have accepts : ¬ Rejects smallInode.size 0 (UInt32.ofNat bytes.length) := by
    unfold Rejects
    rw [count, UInt32.toNat_zero]
    omega
  obtain ⟨after, ip', tot, new, -, wrote, logs⟩ :=
    Opened.writei_accepts (o := diskKernel.fs) image_wide cached_wide count.symm accepts
  have same : fileOf bytes = ⟨after, ip', []⟩ := by rw [fileOf, wrote]
  rw [same]
  exact ⟨logs.image, logs.cached⟩

/-- The machine with a file of these bytes open. -/
def fileKernel (bytes : List UInt8) : Kernel Unit Opened := { diskKernel with fs := fileOf bytes }

/-- Map pages of the file shared and store a byte at an address of the process, which faults first. -/
def storeShared (length : Int32) (at_ : UInt64) : List Label :=
  [mapPagesOf length 3 1, ⟨firstPid, .access at_ (some 7)⟩, ⟨firstPid, .access at_ (some 7)⟩]

/-- A page of bytes. -/
def pageOfBytes : List UInt8 := List.replicate PGSIZE 9

/-- A process has mapped the one page of its file shared and writable, and the page is resident. -/
structure OnePage (k : Kernel Unit Opened) (v : Vma) : Prop where
  same : k.fs = (fileKernel pageOfBytes).fs
  found : VmaTable.find (k.proc firstPid).vma topPage.toNat = some ⟨0, by decide⟩
  region : (k.proc firstPid).vma ⟨0, by decide⟩ = v
  shared : v.isShared = true
  writable : v.isWritable = true
  held : 1 ≤ (k.file v.file).ref
  type : (k.file v.file).type = .inode
  inode : (k.file v.file).ip = some ()
  fits : topPage.toNat + 4096 ≤ v.addr + v.size
  offsets : k.residentOffsets firstPid v (topPage.toNat, topPage.toNat + 4096) = [0]
  pages : ∀ vpn ∈ pagesBetween topPage.toNat (topPage.toNat + 4096), v.pageOffset vpn = 0 ∧
    Reaches (k.proc firstPid).pagetable.pages vpn

theorem onePage_reached : ∃ k v, Run (Kernel.Step (diskLayer wideSuperblock)) (fileKernel pageOfBytes)
    (storeShared 4096 topPage) k ∧ OnePage k v := by
  have replayed : (replay (diskLayer wideSuperblock) (fun _ _ => true) (storeShared 4096 topPage)
      (fileKernel pageOfBytes)).any fun k =>
        let v := (k.proc firstPid).vma ⟨0, by decide⟩
        VmaTable.find (k.proc firstPid).vma topPage.toNat == some ⟨0, by decide⟩ && v.isShared &&
        v.isWritable && decide (1 ≤ (k.file v.file).ref ∧ (k.file v.file).type = .inode ∧
          (k.file v.file).ip = some () ∧ topPage.toNat + 4096 ≤ v.addr + v.size) &&
        k.residentOffsets firstPid v (topPage.toNat, topPage.toNat + 4096) == [0] &&
        (pagesBetween topPage.toNat (topPage.toNat + 4096)).all fun vpn =>
          v.pageOffset vpn == 0 && decide (Reaches (k.proc firstPid).pagetable.pages vpn) := by
    decide +kernel
  obtain ⟨k, reached, checks⟩ := (Option.any_eq_true _ _).mp replayed
  simp only [Bool.and_eq_true, beq_iff_eq, decide_eq_true_eq, List.all_eq_true] at checks
  obtain ⟨⟨⟨⟨⟨found, shared⟩, writable⟩, held, type, inode, fits⟩, offsets⟩, pages⟩ := checks
  have run := (run_of_replay (fun _ _ => True) (fun _ _ _ => trivial) reached).mono
    fun _ _ _ => And.left
  exact ⟨k, _, run, calm_run (by decide) run, found, rfl, shared, writable, held, type, inode, fits,
    offsets, pages⟩

section OnePage

variable {k : Kernel Unit Opened} {v : Vma} (onePage : OnePage k v)

include onePage

theorem OnePage.image : Image wideSuperblock k.fs.disk ∧
    Cached wideSuperblock k.fs.disk k.fs.inode := by
  rw [onePage.same]
  exact fileOf_image (by rw [pageOfBytes, List.length_replicate]; decide)

theorem OnePage.size : k.fs.inode.size = PGSIZE ∧ k.fs.inode.nlink = 1 ∧ k.fs.inode.ref = 1 := by
  rw [onePage.same]
  decide +kernel

theorem OnePage.inside : Inside (UInt32.ofNat PGSIZE) k.fs.inode.size
    (k.residentPages firstPid v (pagesBetween topPage.toNat (topPage.toNat + 4096))) := by
  rw [onePage.size.1]
  refine ⟨by decide, fun page member => ⟨residentPages_whole page member, ?_⟩⟩
  have first := @List.mem_map_of_mem _ _ _ _ Prod.fst member
  have offsets := onePage.offsets
  rw [Kernel.residentOffsets] at offsets
  rw [offsets, List.mem_singleton] at first
  rw [first]
  decide

/-- There is room, and at most six blocks are logged. -/
theorem OnePage.space : k.MunmapRoom wideSuperblock id firstPid ⟨0, by decide⟩
      (topPage.toNat, topPage.toNat + 4096) ∧
    k.munmapSpace wideSuperblock id firstPid ⟨0, by decide⟩ (topPage.toNat, topPage.toNat + 4096) ≤ 6 := by
  have space := Opened.logSpace_inside onePage.image.1 onePage.image.2 onePage.inside
  have offsets := onePage.offsets
  rw [Kernel.residentOffsets] at offsets
  rw [offsets] at space
  rw [Kernel.MunmapRoom, Kernel.munmapSpace, onePage.region, id]
  refine ⟨Opened.room_inside onePage.image.1 onePage.image.2 onePage.inside, ?_⟩
  rw [onePage.offsets, space]
  exact Nat.add_le_add_left (coveredBlocks_one (by decide) 0) 1

end OnePage

/-- The one page fits. -/
theorem munmap_fits_small : ∃ k v accepted k', Run (Kernel.Step (diskLayer wideSuperblock))
      (fileKernel pageOfBytes) (storeShared 4096 topPage) k ∧ OnePage k v ∧
    writeback (diskLayer wideSuperblock) firstPid v ()
      (pagesBetween topPage.toNat (topPage.toNat + 4096)) k = .ok (accepted, k') ∧
    k'.fs.log.toFinset.card ≤ MAXOPBLOCKS := by
  obtain ⟨k, v, run, onePage⟩ := onePage_reached
  have region := onePage.region
  have range : munmapRange topPage.toNat 4096 = (topPage.toNat, topPage.toNat + 4096) := by decide
  obtain ⟨accepted, k', back, -, -, exactly⟩ := @munmap_fits _ _ _ k _ _ 4096 _ _ _ _
    (diskLayer_writes wideSuperblock) onePage.image.1 onePage.image.2 (by rw [onePage.same]; rfl)
    onePage.found (by rw [region, onePage.shared]) (by rw [region, onePage.writable])
    (by rw [region, onePage.inode])
  rw [range] at back exactly
  rw [region] at back
  exact ⟨k, v, accepted, k', run, onePage, back,
    (exactly onePage.space.1).mpr (onePage.space.2.trans (by decide))⟩

/-- **The log overflows.** A process maps three pages of an empty file, reads a byte of each and unmaps
them: the write-back logs fifteen blocks. -/
theorem munmap_overflows_log : ∃ k k', Run (Kernel.Step (diskLayer wideSuperblock)) diskKernel
      loadThreePages k ∧ Image wideSuperblock k.fs.disk ∧ Cached wideSuperblock k.fs.disk k.fs.inode ∧
    k.fs.log = [] ∧
    sys_munmap (diskLayer wideSuperblock) firstPid (topPage - 8192).toNat 12288 k = .ok (0, k') ∧
    MAXOPBLOCKS < k'.fs.log.toFinset.card := by
  have replayed : (replay (diskLayer wideSuperblock) (fun _ _ => true) loadThreePages diskKernel).any
      fun k => (sys_munmap (diskLayer wideSuperblock) firstPid (topPage - 8192).toNat 12288
        k).toOption.any fun result => result.1 == 0 &&
          decide (MAXOPBLOCKS < result.2.fs.log.toFinset.card) := by
    decide +kernel
  obtain ⟨k, reached, checks⟩ := (Option.any_eq_true _ _).mp replayed
  obtain ⟨r, k', ends, checks⟩ := exists_of_any checks
  simp only [Bool.and_eq_true, beq_iff_eq, decide_eq_true_eq] at checks
  obtain ⟨rfl, many⟩ := checks
  have run := (run_of_replay (fun _ _ => True) (fun _ _ _ => trivial) reached).mono
    fun _ _ _ => And.left
  have same : k.fs = diskKernel.fs := calm_run (by decide) run
  refine ⟨k, k', run, ?_, ?_, ?_, ends, many⟩
  · rw [same]
    exact image_wide
  · rw [same]
    exact cached_wide
  · rw [same]
    rfl

end Csc3150.Mmap
