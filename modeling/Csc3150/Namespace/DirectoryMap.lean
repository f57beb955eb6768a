/-
**Calls on an open directory.**

An entry of a directory is stored whole or not at all, and taking and dropping references leaves the
directory alone.

* `OpenDir.store` — storing an entry;
* `OpenDir.iget`, `OpenDir.iput` — a reference to any inode.
-/

import Csc3150.Namespace.Directory

namespace Csc3150.Namespace

open ByteBuffer FileSystem Outcome Program Search SlotMap Transition
open Program.Script (atomic)

/-! ### Storing an entry -/

/-- A write inside one block that stores nothing finds the block missing and the disk full. -/
theorem writei_missing {sb : Superblock} {disk : Disk} {ip : Inode} {src : CopyIn} {off n : UInt32}
    {after : Disk} {ip' : Inode} (image : Image sb disk) (cached : Cached sb disk ip)
    (copies : ∀ tot m, src.fault tot m = none) (positive : 0 < n.toNat)
    (fits : off.toNat % BSIZE + n.toNat ≤ BSIZE) (accepts : ¬ Rejects ip.size off n)
    (run : FileSystem.writei sb disk ip src off n = .ok (after, ip', (0 : Int))) :
    pointer after (dinode sb after ip.inum).addrs (slotOf (off.toNat / BSIZE)) = 0 := by
  have small : off.toNat / BSIZE < MAXFILE := by
    unfold Rejects at accepts
    exact Nat.div_lt_of_lt_mul (by rw [Nat.mul_comm]; omega)
  have owned : Owned sb disk (withInode (dinode sb disk) ip) := by
    rw [cached.withInode]
    exact image.owned
  have inUse : InUse sb (withInode (dinode sb disk) ip) ip.inum := by
    rw [cached.withInode]
    exact cached.inUse
  obtain ⟨middle, ip₁, addr, mapped, walk⟩ := bmap_spec image.layout owned inUse small
  have number : ip₁.inum = ip.inum := by
    rw [walk.change]
  obtain ⟨_, _, _, mapped', total⟩ :=
    @writei_block _ _ _ _ _ _ _ _ 0 copies positive fits accepts run
  rw [mapped] at mapped'
  cases mapped'
  have zero : addr = 0 := by
    by_contra nonzero
    rw [if_neg nonzero] at total
    omega
  subst zero
  have same : ip₁.size = ip.size := by
    rw [walk.change]
  have loop : writeiLoop sb src n.toNat n.toNat disk ip off.toNat 0 =
      .ok (middle, ip₁, off.toNat, 0) := by
    obtain ⟨fuel, isSucc⟩ : ∃ fuel, n.toNat = fuel + 1 := ⟨n.toNat - 1, by omega⟩
    rw [show writeiLoop sb src n.toNat n.toNat disk ip off.toNat 0 =
      writeiLoop sb src n.toNat (fuel + 1) disk ip off.toNat 0 by rw [← isSucc]]
    exact writeiLoopWith_stop positive mapped
  have run := (bind_of_ok loop).symm.trans ((writeiWith_eq accepts).symm.trans run)
  have final : after = iupdate sb middle ip₁ := by
    have grown : ¬ ip₁.size < off.toNat := by
      unfold Rejects at accepts
      omega
    dsimp only at run
    rw [if_neg grown] at run
    cases run
    rfl
  have inUse₁ : InUse sb (withInode (dinode sb disk) ip₁) ip.inum :=
    (walk.grows.inUse_iff _).mpr inUse
  have tree : (withInode (dinode sb disk) ip₁ ip.inum) = ip₁.toDinode := by
    rw [← number, withInode_self]
  have fits : ip₁.Fits := by
    refine ⟨?_, fun k => ?_⟩
    · rw [same, cached.same]
      exact (dinode_fits sb disk ip.inum).size_lt
    · have := walk.grows.owned.addrs_lt image.layout inUse₁ k
      rwa [tree] at this
  have updated : Updated sb disk middle (withInode (dinode sb disk) ip₁) ip.inum ip₁.toDinode
      (iupdate sb middle ip₁) := by
    rw [iupdate_eq, number]
    refine walk.grows.owned.updated image.layout cached.inUse.2.1 fits walk.grows.frame
      (fun m different => ?_) (by rw [tree]) (by rw [tree])
    rw [walk.grows.others m different, cached.withInode]
  rw [final, updated.pointers inUse₁, tree]
  exact walk.held

/-- A step that changes no reference count, validity or number in the table. -/
structure SameEntries (fs fs' : Fs) : Prop where
  ref : ∀ j, (fs'.inode j).ref = (fs.inode j).ref
  valid : ∀ j, (fs'.inode j).valid = (fs.inode j).valid
  inum : ∀ j, (fs'.inode j).inum = (fs.inode j).inum

theorem SameEntries.put {fs : Fs} {i : Ip} {disk : Disk} {ip : Inode}
    (ref : ip.ref = (fs.inode i).ref) (valid : ip.valid = (fs.inode i).valid)
    (inum : ip.inum = (fs.inode i).inum) : SameEntries fs (fs.put i disk ip) := by
  refine ⟨fun j => ?_, fun j => ?_, fun j => ?_⟩ <;> by_cases same : j = i
  all_goals first
    | rw [same, Fs.put_self]; assumption
    | rw [Fs.put_of_ne _ _ _ _ same]

/-- The block of entry `k` of directory `d` is there. -/
def Mapped (sb : Superblock) (disk : Disk) (d k : Nat) : Prop :=
  pointer disk (dinode sb disk d).addrs (slotOf (direntSize * k / BSIZE)) ≠ 0

/-- No new entry can be stored: the directory has all its blocks and no free entry, or the block of the
new entry is missing and the disk is full. -/
def NoRoom (sb : Superblock) (disk : Disk) (d : Nat) (bytes : List UInt8) : Prop :=
  direntSize * freeSlot bytes = MAXFILE * BSIZE ∨
    Full sb disk ∧ ¬ Mapped sb disk d (freeSlot bytes)

section Store

variable {sb : Superblock} {fs : Fs} {dp : Ip} {bytes data : List UInt8} {k : Nat}

/-- An entry is stored whole, or not at all. -/
theorem OpenDir.store (dir : OpenDir sb fs dp bytes) (width : data.length = direntSize)
    (start : k ≤ slots bytes) :
    ∃ r fs', Fs.writei sb dp (.kernel data) (UInt32.ofNat (direntSize * k)) 16 fs = .ok (r, fs') ∧
      SameEntries fs fs' ∧
      ((r = -1 ∧ fs' = fs ∧ direntSize * k = MAXFILE * BSIZE) ∨
      (r = direntSize ∧ direntSize * k < MAXFILE * BSIZE ∧
        Mapped sb fs'.disk (fs.inode dp).inum k ∧
        OpenDir sb fs' dp (overwrite bytes (direntSize * k) data)) ∨
      (r = 0 ∧ direntSize * k < MAXFILE * BSIZE ∧ k = slots bytes ∧ Full sb fs'.disk ∧
        ¬ Mapped sb fs'.disk (fs.inode dp).inum k ∧ OpenDir sb fs' dp bytes)) := by
  have small := dir.small
  have total : MAXFILE * BSIZE % direntSize = 0 ∧ MAXFILE * BSIZE < 2 ^ 32 := by decide
  have below : direntSize * k ≤ bytes.length := by
    unfold slots direntSize at *
    omega
  have offset := entryOffset (k := k) (by omega)
  have sixteen : (16 : UInt32).toNat = direntSize := rfl
  have size := dir.size
  obtain ⟨rejected, accepted⟩ := writei_spec dir.image dir.cached (.kernel data)
    (UInt32.ofNat (direntSize * k)) 16
  by_cases rejects : Rejects (fs.inode dp).size (UInt32.ofNat (direntSize * k)) 16
  · refine ⟨-1, fs.put dp fs.disk (fs.inode dp), bind_of_ok (rejected rejects),
      .put rfl rfl rfl, Or.inl ⟨rfl, by rw [Fs.put, Function.update_eq_self], ?_⟩⟩
    unfold Rejects at rejects
    rw [offset, sixteen, size] at rejects
    unfold direntSize at *
    omega
  · obtain ⟨after, ip, tot, hi, run, written⟩ := accepted rejects
    have room : direntSize * k + direntSize ≤ MAXFILE * BSIZE := by
      unfold Rejects at rejects
      rw [offset, sixteen, size] at rejects
      omega
    have inside : direntSize * k < MAXFILE * BSIZE := by
      unfold direntSize at *
      omega
    have fits : (UInt32.ofNat (direntSize * k)).toNat % BSIZE + (16 : UInt32).toNat ≤ BSIZE := by
      rw [offset, sixteen]
      unfold direntSize BSIZE
      omega
    have change := written.change
    have number : ip.inum = (fs.inode dp).inum := by
      rw [change]
    have own : ip.toDinode = dinode sb after (fs.inode dp).inum := by
      rw [written.cached.same, number]
    have contents := written.content_eq dir.cached (fun _ _ => rfl) (by rw [offset, size]; exact below)
      (by rw [size]; exact small) (by rw [offset]; exact room)
    rw [dir.stored, offset, kernel_bytes (by rw [width]; exact written.upper)] at contents
    have opened : ∀ stored, content sb after (fs.inode dp).inum = stored →
        stored.length % direntSize = 0 → stored.length ≤ MAXFILE * BSIZE →
        OpenDir sb (fs.put dp after ip) dp stored := by
      intro stored same whole small
      have self := fs.put_self dp after ip
      refine ⟨written.image, ?_, ?_, ?_, ?_, whole, small⟩
      · rw [self, change]
        exact dir.held
      · rw [self]
        exact written.cached
      · rw [self, change]
        exact dir.type
      · rw [self, number]
        exact same
    refine ⟨tot, fs.put dp after ip, bind_of_ok run, .put (by rw [change]) (by rw [change]) number,
      Or.inr ?_⟩
    obtain ⟨middle, ip₁, addr, mapped, all⟩ :=
      writei_block (fun _ _ => rfl) (by decide) fits rejects run
    by_cases zero : addr = 0
    · -- a mapped block is found, so the entry is a new one
      rw [if_pos zero] at all
      subst all
      have last : k = slots bytes := by
        by_contra earlier
        refine bmap_mapped dir.image dir.cached ?_ ?_ mapped zero
        · rw [offset, size]
          unfold slots direntSize at *
          omega
        · rwa [offset]
      have full : Full sb after := by
        rcases written.stopped (by decide) with ⟨full, -⟩ | ⟨_, fault, -⟩
        · exact full
        · cases fault
      have missing := writei_missing dir.image dir.cached (fun _ _ => rfl) (by decide) fits rejects run
      rw [offset] at missing
      rw [List.take_zero, overwrite_nil] at contents
      exact Or.inr ⟨rfl, inside, last, full, not_not.mpr missing,
        opened bytes contents dir.whole small⟩
    · rw [if_neg zero, sixteen] at all
      subst all
      rw [List.take_of_length_le (le_of_eq width)] at contents
      have whole := (slots_overwrite width dir.whole start).1
      have grown : ip.size = max bytes.length (direntSize * k + direntSize) := by
        rw [change]
        dsimp only
        rw [offset, size]
      refine Or.inl ⟨rfl, inside, ?_, opened _ contents whole ?_⟩
      · refine written.image.filled _ (number ▸ written.cached.inUse) _ ?_ ?_
        · exact Nat.div_lt_of_lt_mul (by rwa [Nat.mul_comm BSIZE])
        · have := Nat.div_mul_le_self (direntSize * k) BSIZE
          rw [← own, grown]
          unfold direntSize at *
          omega
      · rw [overwrite_length below, width]
        omega

end Store

/-! ### Calls on an open directory -/

/-- The panic of `iget` when the inode table has no entry left. -/
def Crowded (fs : Fs) (halt : Halt) : Prop :=
  halt = .igetNoInodes ∧ ∀ i, (fs.inode i).ref ≠ 0

/-- A reference that can be dropped without freeing an inode, or the entry `dp`. -/
def Spare (fs : Fs) (dp ip : Ip) : Prop :=
  1 < (fs.inode ip).ref ∨ (fs.inode ip).valid = false ∧ ip ≠ dp

/-- The part of `sys_unlink` that clears an entry: look the name up, overwrite its entry with zeros and
drop the inode. -/
def clearDirent (sb : Superblock) (dp : Ip) (name : Name) : FsScript Bool := do
  match ← dirlookup sb dp name with
  | none => return false
  | some (ip, off) =>
    let r ← atomic (Fs.writei sb dp (.kernel (List.replicate direntSize 0)) (UInt32.ofNat off) 16)
    if r ≠ direntSize then panic .unlinkWritei
    else
      iput sb ip
      return true

section Calls

variable {sb : Superblock} {fs fs' : Fs} {dp ip : Ip} {bytes : List UInt8} {name : Name}

theorem OpenDir.congr (dir : OpenDir sb fs dp bytes) (disk : fs'.disk = fs.disk)
    (held : 0 < (fs'.inode dp).ref) (number : (fs'.inode dp).inum = (fs.inode dp).inum)
    (same : (fs'.inode dp).toDinode = (fs.inode dp).toDinode) : OpenDir sb fs' dp bytes where
  image := disk ▸ dir.image
  held := held
  cached := by
    rw [disk]
    exact dir.cached.congr number same
  type := (congrArg Dinode.type same).trans dir.type
  stored := by
    rw [disk, number]
    exact dir.stored
  whole := dir.whole
  small := dir.small

/-- Taking a reference to an inode, whatever its number. -/
theorem OpenDir.iget (dir : OpenDir sb fs dp bytes) {dev n : Nat}
    (run : FileSystem.iget dev n fs = .ok (ip, fs')) :
    OpenDir sb fs' dp bytes ∧ (fs'.inode dp).inum = (fs.inode dp).inum ∧ fs'.disk = fs.disk ∧
      (fs'.inode ip).inum = n ∧ Spare fs' dp ip := by
  have held := dir.held
  rcases iget_ends run with ⟨pos, -, number, rfl⟩ | ⟨idle, -, rfl⟩
  · have spare : Spare (fs.setInode ip { fs.inode ip with ref := (fs.inode ip).ref + 1 }) dp ip := by
      refine Or.inl ?_
      rw [Fs.setInode_self]
      dsimp only
      omega
    by_cases isIp : dp = ip
    · subst isIp
      have number' : ((fs.setInode dp { fs.inode dp with ref := (fs.inode dp).ref + 1 }).inode
          dp).inum = (fs.inode dp).inum := by
        rw [Fs.setInode_self]
      refine ⟨dir.congr rfl ?_ number' ?_, number', rfl, number'.trans number, spare⟩
      · rw [Fs.setInode_self]
        dsimp only
        omega
      · rw [Fs.setInode_self]
    · have same := fs.setInode_of_ne ip { fs.inode ip with ref := (fs.inode ip).ref + 1 } isIp
      refine ⟨dir.congr rfl ?_ ?_ ?_, ?_, rfl, ?_, spare⟩
      · rwa [same]
      · rw [same]
      · rw [same]
      · rw [same]
      · rw [Fs.setInode_self]
        exact number
  · have apart : dp ≠ ip := fun same => by
      rw [same, idle] at held
      exact lt_irrefl _ held
    have same := fs.setInode_of_ne ip
      { fs.inode ip with dev := dev, inum := n, ref := 1, valid := false } apart
    refine ⟨dir.congr rfl ?_ ?_ ?_, ?_, rfl, ?_, Or.inr ⟨?_, apart.symm⟩⟩
    · rwa [same]
    · rw [same]
    · rw [same]
    · rw [same]
    · rw [Fs.setInode_self]
    · rw [Fs.setInode_self]

/-- Dropping a spare reference. -/
theorem OpenDir.iput (dir : OpenDir sb fs dp bytes) (spare : Spare fs dp ip) :
    ∃ fs', (Namespace.iput sb ip).run fs = .ok ((), fs') ∧ OpenDir sb fs' dp bytes ∧
      (fs'.inode dp).inum = (fs.inode dp).inum ∧ fs'.disk = fs.disk := by
  have notLast : ¬ ((fs.inode ip).ref = 1 ∧ (fs.inode ip).valid = true ∧ (fs.inode ip).nlink = 0) := by
    rintro ⟨one, valid, -⟩
    rcases spare with more | ⟨invalid, -⟩
    · omega
    · rw [invalid] at valid
      cases valid
  refine ⟨fs.setInode ip { fs.inode ip with ref := (fs.inode ip).ref - 1 }, ?_, ?_⟩
  · rw [run_iput]
    exact if_neg notLast
  by_cases isIp : dp = ip
  · subst isIp
    have more : 1 < (fs.inode dp).ref := spare.resolve_right fun both => both.2 rfl
    have number : ((fs.setInode dp { fs.inode dp with ref := (fs.inode dp).ref - 1 }).inode
        dp).inum = (fs.inode dp).inum := by
      rw [Fs.setInode_self]
    refine ⟨dir.congr rfl ?_ number ?_, number, rfl⟩
    · rw [Fs.setInode_self]
      dsimp only
      omega
    · rw [Fs.setInode_self]
  · have same := fs.setInode_of_ne ip { fs.inode ip with ref := (fs.inode ip).ref - 1 } isIp
    refine ⟨dir.congr rfl ?_ ?_ ?_, ?_, rfl⟩
    · rw [same]
      exact dir.held
    · rw [same]
    · rw [same]
    · rw [same]

end Calls

end Csc3150.Namespace
