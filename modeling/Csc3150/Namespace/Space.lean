/-
**Free inodes and free blocks for a new name.**

A new name needs an inode, and sixteen bytes of one block of the directory. `ialloc` and `iupdate` write
blocks of inodes only, so what `dirlink` finds free is what was free before.

* `CanLink` — there is a free inode, and the directory has room for one more entry;
* `KeepsMap` — a step that keeps the free blocks and the empty slots of an inode;
* `At.dirlink_takes` — `dirlink` succeeds exactly in a directory with room, and takes as many blocks as
  were missing on the way to the new entry.
-/

import Csc3150.FileSystem.MapExtension
import Csc3150.Namespace.Walking

namespace Csc3150.Namespace

open ByteBuffer FileSystem Outcome Program Search
open Program.Script (atomic)

/-! ### Steps that keep an inode's map -/

/-- The free blocks, and the empty slots of inode `n`, are the same on both disks. -/
structure KeepsMap (sb : Superblock) (n : Nat) (disk after : Disk) : Prop where
  free : freeBlocks sb after = freeBlocks sb disk
  missing : ∀ bns, FileSystem.missing after (dinode sb after n).addrs bns =
    FileSystem.missing disk (dinode sb disk n).addrs bns

namespace KeepsMap

variable {sb : Superblock} {n inum : Nat} {disk middle after : Disk} {fs : Fs} {i : Ip}

theorem refl (sb : Superblock) (n : Nat) (disk : Disk) : KeepsMap sb n disk disk :=
  ⟨rfl, fun _ => rfl⟩

theorem trans (first : KeepsMap sb n disk middle) (second : KeepsMap sb n middle after) :
    KeepsMap sb n disk after :=
  ⟨second.free.trans first.free, fun bns => (second.missing bns).trans (first.missing bns)⟩

/-- Another inode is written back. -/
theorem writeDinode (image : Image sb disk) (inUse : InUse sb (dinode sb disk) n)
    (inside : inum < sb.ninodes) (different : n ≠ inum) (dip : Dinode) :
    KeepsMap sb n disk (FileSystem.writeDinode sb disk inum dip) where
  free := by
    ext b
    refine and_congr_right fun small => ?_
    rw [FileSystem.writeDinode, marked_inodeBlock image.layout inside small]
  missing bns := by
    rw [dinode_writeDinode_of_ne _ _ _ different]
    ext slot
    refine and_congr_left fun _ => ?_
    rw [FileSystem.writeDinode, image.owned.pointer_inodeBlock image.layout inside inUse]

/-- `ialloc` writes the free inode that it takes. -/
theorem ialloc (sound : fs.Sound sb) (inUse : InUse sb (dinode sb fs.disk) n) {type : Int16} :
    Ensures (FileSystem.ialloc sb ROOTDEV type) fs fun _ fs' => KeepsMap sb n fs.disk fs'.disk := by
  intro r fs' run
  rw [FileSystem.ialloc] at run
  dsimp only at run
  split at run
  · rename_i inum found
    obtain ⟨m, lower, upper, here, -⟩ := search_eq_some_iff.mp found
    split_ifs at here with free
    cases here
    obtain ⟨⟨j, final⟩, get, rest⟩ := bind_eq_ok.mp run
    cases rest
    have written : final.disk = _ := At.iget_quiet _ _ get
    rw [written]
    refine writeDinode sound.image inUse (by omega) (fun same => ?_) _
    exact inUse.2.2 (same ▸ free)
  · cases run
    exact refl _ _ _

theorem iupdate (image : Image sb fs.disk) (inUse : InUse sb (dinode sb fs.disk) n)
    (inside : (fs.inode i).inum < sb.ninodes) (different : n ≠ (fs.inode i).inum) :
    Ensures (Fs.iupdate sb i) fs fun _ fs' => KeepsMap sb n fs.disk fs'.disk := by
  intro _ fs' run
  cases run
  exact writeDinode image inUse inside different _

end KeepsMap

/-! ### Room for an entry -/

/-- The empty slots on the way to the block of the next entry of directory `d`. -/
def entrySlots (sb : Superblock) (disk : Disk) (d : Nat) (bytes : List UInt8) : Set Slot :=
  missing disk (dinode sb disk d).addrs {direntSize * freeSlot bytes / BSIZE}

/-- The entry ends below the largest file size, and as many blocks are free as it needs. -/
structure HasRoom (sb : Superblock) (disk : Disk) (d : Nat) (bytes : List UInt8) : Prop where
  size : direntSize * freeSlot bytes + direntSize ≤ MAXFILE * BSIZE
  blocks : (entrySlots sb disk d bytes).ncard ≤ (freeBlocks sb disk).ncard

/-- A new inode can be made, with an entry in directory `d`. -/
structure CanLink (sb : Superblock) (disk : Disk) (d : Nat) (bytes : List UInt8) : Prop
    extends HasRoom sb disk d bytes where
  inode : ∃ n, 0 < n ∧ n < sb.ninodes ∧ (dinode sb disk n).type = 0

theorem KeepsMap.entrySlots {sb : Superblock} {d : Nat} {disk after : Disk}
    (keeps : KeepsMap sb d disk after) (bytes : List UInt8) :
    entrySlots sb after d bytes = entrySlots sb disk d bytes := keeps.missing _

theorem KeepsMap.hasRoom {sb : Superblock} {d : Nat} {disk after : Disk} {bytes : List UInt8}
    (keeps : KeepsMap sb d disk after) : HasRoom sb after d bytes ↔ HasRoom sb disk d bytes := by
  constructor
  · intro room
    exact ⟨room.size, by rw [← keeps.entrySlots, ← keeps.free]; exact room.blocks⟩
  · intro room
    exact ⟨room.size, by rw [keeps.entrySlots, keeps.free]; exact room.blocks⟩

/-! ### What `dirlink` takes -/

section Entry

variable {sb : Superblock} {fs : Fs} {dp : Ip} {bytes : List UInt8} {nm : Name} {n : Nat}

theorem rejects_entry (start : direntSize * freeSlot bytes ≤ bytes.length)
    (small : bytes.length ≤ MAXFILE * BSIZE) :
    Rejects bytes.length (UInt32.ofNat (direntSize * freeSlot bytes)) 16 ↔
      ¬ direntSize * freeSlot bytes + direntSize ≤ MAXFILE * BSIZE := by
  have total : MAXFILE * BSIZE < 2 ^ 32 := by decide
  have sixteen : (16 : UInt32).toNat = direntSize := rfl
  rw [Rejects, entryOffset (start.trans small), sixteen]
  omega

/-- Storing an entry at the free slot. -/
theorem writei_entry (dir : OpenDir sb fs dp bytes) :
    Ensures (Fs.writei sb dp (.kernel (newDirent nm n).toBytes)
      (UInt32.ofNat (direntSize * freeSlot bytes)) 16) fs fun r fs' =>
      (r = direntSize → HasRoom sb fs.disk (fs.inode dp).inum bytes ∧
        (freeBlocks sb fs'.disk).ncard + (entrySlots sb fs.disk (fs.inode dp).inum bytes).ncard =
          (freeBlocks sb fs.disk).ncard) ∧
      (r ≠ direntSize → ¬ HasRoom sb fs.disk (fs.inode dp).inum bytes) := by
  have start : direntSize * freeSlot bytes ≤ bytes.length := by
    have := freeSlot_le bytes
    unfold slots direntSize at *
    omega
  have offset := entryOffset (start.trans dir.small)
  intro r fs' run
  obtain ⟨⟨disk, ip, r'⟩, wrote, stored⟩ := bind_eq_ok.mp run
  cases stored
  have spec := writei_spec dir.image dir.cached (.kernel (newDirent nm n).toBytes)
    (UInt32.ofNat (direntSize * freeSlot bytes)) 16
  rw [dir.size, rejects_entry start dir.small] at spec
  by_cases size : direntSize * freeSlot bytes + direntSize ≤ MAXFILE * BSIZE
  · have fits : (UInt32.ofNat (direntSize * freeSlot bytes)).toNat % BSIZE + (16 : UInt32).toNat ≤
        BSIZE := by
      rw [offset]
      show direntSize * freeSlot bytes % BSIZE + direntSize ≤ BSIZE
      unfold direntSize BSIZE
      omega
    have quiet : ∀ tot m, (CopyIn.kernel (newDirent nm n).toBytes).fault tot m = none := fun _ _ => rfl
    have takes := writei_takes dir.image dir.cached quiet
      (by rw [dir.size]; exact mt (rejects_entry start dir.small).mp (not_not.mpr size))
      (show 0 < (16 : UInt32).toNat by decide) fits
    obtain ⟨after, ip', tot, ran, takes⟩ := takes
    rw [wrote] at ran
    cases ran
    have slots : (missing fs.disk (fs.inode dp).addrs
        {(UInt32.ofNat (direntSize * freeSlot bytes)).toNat / BSIZE}) =
        entrySlots sb fs.disk (fs.inode dp).inum bytes := by
      rw [entrySlots, ← dir.cached.same, offset]
    rw [slots] at takes
    rcases takes with ⟨all, count⟩ | ⟨short, few⟩
    · refine ⟨fun _ => ⟨⟨size, by omega⟩, count⟩, fun partly => absurd ?_ partly⟩
      rw [all]
      rfl
    · refine ⟨fun all => ?_, fun _ room => absurd room.blocks (not_le.mpr few)⟩
      have isAll : tot = direntSize := Int.ofNat.inj all
      rw [isAll] at short
      exact absurd short (lt_irrefl _)
  · rw [spec.1 size] at wrote
    cases wrote
    exact ⟨fun all => absurd all (by decide), fun _ room => size room.size⟩

end Entry

namespace At

variable {sb : Superblock} {uses : Ip → Int} {hand : Hand} {name : Ip → Nat}
  {node : Nat → Option Node} {fs : Fs} {i : Ip} {x : Node} {nm : Name} {n : Nat}

theorem inUse (here : At sb uses hand name node fs) (isNode : node n = some x) :
    InUse sb (dinode sb fs.disk) n := by
  by_contra free
  rw [← here.nodes, nodeAt_eq_none.mpr free] at isNode
  cases isNode

/-- A locked inode is written back, with new fields. -/
theorem iupdate_keepsMap {m : Nat} {change : Dinode} (here : At sb uses hand name node fs)
    (lock : i ∈ hand.locks) (isNode : node m = some x) (other : m ≠ name i) :
    Ensures (Fs.iupdate sb i) (fs.setInode i { fs.inode i with toDinode := change })
      fun _ fs' => KeepsMap sb m fs.disk fs'.disk := by
  have number := here.named (here.sound.table.locked ((here.locked i).mpr lock)).1
  have inside := (here.name_range (here.sound.table.locked ((here.locked i).mpr lock)).1).2
  refine (KeepsMap.iupdate here.sound.image (here.inUse isNode) ?_ ?_ :
    Ensures (Fs.iupdate sb i) (fs.setInode i { fs.inode i with toDinode := change }) _)
  · rw [Fs.setInode_self]
    exact number ▸ inside
  · rw [Fs.setInode_self]
    exact number ▸ other

/-- **`dirlink` of a new name** succeeds if and only if the directory has room, and takes the blocks that
were missing. -/
theorem dirlink_takes (here : At sb uses hand name node fs) (lock : i ∈ hand.locks)
    (isNode : node (name i) = some x) (isDir : x.type = T_DIR)
    (absent : lookup x.bytes (key nm) = none) :
    Ensures (Namespace.dirlink sb i nm n).run fs fun r fs' =>
      (r = 0 → HasRoom sb fs.disk (name i) x.bytes ∧
        (freeBlocks sb fs'.disk).ncard + (entrySlots sb fs.disk (name i) x.bytes).ncard =
          (freeBlocks sb fs.disk).ncard) ∧
      (r = -1 → ¬ HasRoom sb fs.disk (name i) x.bytes) := by
  have dir := here.openDir lock isNode isDir
  have notFound : (Namespace.dirlookup sb i nm).run fs = .ok (none, fs) := by
    rw [run_dirlookup dir, absent]
    rfl
  have stores : Meets (Fs.writei sb i (.kernel (newDirent nm n).toBytes) _ 16) fs (fun _ => True) _ :=
    Meets.trivial.also (writei_entry dir)
  have whole : Meets (Namespace.dirlink sb i nm n).run fs (fun _ => True) fun r fs' =>
      (r = 0 → HasRoom sb fs.disk (fs.inode i).inum x.bytes ∧
        (freeBlocks sb fs'.disk).ncard + (entrySlots sb fs.disk (fs.inode i).inum x.bytes).ncard =
          (freeBlocks sb fs.disk).ncard) ∧
      (r = -1 → ¬ HasRoom sb fs.disk (fs.inode i).inum x.bytes) := by
    refine .seq_run notFound (.seq_run rfl (.seq_run (run_empty dir) (.seq (.atomic stores)
      fun r fs' stored => ?_)))
    obtain ⟨-, all, partly⟩ := stored
    by_cases isAll : r = direntSize
    · rw [if_neg (not_not.mpr isAll)]
      exact .done ⟨fun _ => all isAll, fun failed => absurd failed (by decide)⟩
    · rw [if_pos isAll]
      exact .done ⟨fun done => absurd done (by decide), fun _ => partly isAll⟩
  rw [here.named ((here.sound.table.locked ((here.locked i).mpr lock)).1)] at whole
  exact whole.ends

end At

end Csc3150.Namespace
