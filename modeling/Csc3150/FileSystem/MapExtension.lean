/-
**`bmap` extends the block map of a file.**

`mapped disk ip bn` is the block that holds file block `bn`, zero when there is none.

* `mapped_of_ne` — a walk to one file block keeps the map of every other one;
* `bmap_again` — a second call finds the block of the first;
* `Attached` — what is left of a walk that failed: index blocks on the way, each attached to the inode
  and with no data block below it;
* `bmap_succeeds` — `bmap` succeeds when as many blocks are free as are missing on the way;
* `writei_takes` — the same for a write inside one block, and how many blocks it leaves;
* `bmap_extends_map` — all of it, for one call.
-/

import Csc3150.FileSystem.LogSpace
import Csc3150.FileSystem.PartialWrite

namespace Csc3150.FileSystem

open ByteBuffer

/-- The block that file block `bn` is mapped to, zero when there is none. -/
def mapped (disk : Disk) (ip : Inode) (bn : Nat) : Nat := pointer disk ip.addrs (slotOf bn)

/-- The blocks that were free and are marked now. -/
def newlyMarked (sb : Superblock) (disk after : Disk) : Set Nat :=
  {b | b ∈ freeBlocks sb disk ∧ marked sb after b = true}

/-- A new index block: a slot of the inode names it, and no entry of it names a data block. An entry
that is not zero is that of the index block allocated below it. -/
def Attached (sb : Superblock) (disk after : Disk) (ip' : Inode) (b : Nat) : Prop :=
  ∃ slot, ¬ slot.IsData ∧ pointer after ip'.addrs slot = b ∧
    ∀ i : Fin NINDIRECT, uintAt (after b) i ≠ 0 →
      slot = .doubly ∧ uintAt (after b) i = pointer after ip'.addrs (.doublyIndex i) ∧
        uintAt (after b) i ∈ newlyMarked sb disk after

theorem Slot.path_length (slot : Slot) : slot.path.length ≤ 3 := by
  cases slot <;> simp [path]

/-- At most three slots lie on the way to a file block. -/
theorem missing_ncard_le (disk : Disk) (addrs : Fin (NDIRECT + 2) → Nat) (bn : Nat) :
    (missing disk addrs {bn}).ncard ≤ 3 := by
  have sub : missing disk addrs {bn} ⊆ ((slotOf bn).path.toFinset : Set Slot) := by
    rintro slot ⟨-, other, rfl, member⟩
    rw [List.coe_toFinset]
    exact member
  calc (missing disk addrs {bn}).ncard
      ≤ ((slotOf bn).path.toFinset : Set Slot).ncard := Set.ncard_le_ncard sub (Set.toFinite _)
    _ = (slotOf bn).path.toFinset.card := Set.ncard_coe_finset _
    _ ≤ (slotOf bn).path.length := List.toFinset_card_le _
    _ ≤ 3 := Slot.path_length _

/-- Every entry of an index block is a slot. -/
theorem child_of_index {slot : Slot} (index : ¬ slot.IsData) (i : Fin NINDIRECT) :
    ∃ child : Slot, child.place = .inr (slot, i) ∧ (¬ child.IsData → slot = .doubly ∧
      child = .doublyIndex i) := by
  cases slot with
  | direct _ => exact absurd trivial index
  | indirect => exact ⟨.indirectEntry i, rfl, fun index => absurd trivial index⟩
  | indirectEntry _ => exact absurd trivial index
  | doubly => exact ⟨.doublyIndex i, rfl, fun _ => ⟨rfl, rfl⟩⟩
  | doublyIndex k => exact ⟨.doublyEntry k i, rfl, fun index => absurd trivial index⟩
  | doublyEntry _ _ => exact absurd trivial index

section Walk

variable {sb : Superblock} {inodes : Nat → Dinode} {disk after : Disk} {ip ip' : Inode}
  {bn addr : Nat}

/-- A walk fills no data slot but its target. -/
theorem Walk.filled_data {target slot : Slot} (walk : Walk sb inodes disk ip target after ip' addr)
    (inUse : InUse sb (withInode inodes ip) ip.inum)
    (filled : Filled disk ip.addrs after ip'.addrs slot) (data : slot.IsData) : slot = target := by
  have fresh := walk.grows.fresh ip.inum slot inUse
  rw [withInode_self, withInode_addrs walk.change] at fresh
  exact (fresh filled.1 filled.2).2.1 data

theorem Walk.inUse {target : Slot} (walk : Walk sb inodes disk ip target after ip' addr)
    (inUse : InUse sb (withInode inodes ip) ip.inum) :
    InUse sb (withInode inodes ip') ip'.inum := by
  rw [walk.number]
  exact (walk.grows.inUse_iff _).mpr inUse

variable (inUse : InUse sb (withInode inodes ip) ip.inum)
  (walk : Walk sb inodes disk ip (slotOf bn) after ip' addr)
  (step : Extends sb disk ip.addrs after ip'.addrs)

include inUse walk step

/-- The map of every other file block is kept. -/
theorem mapped_of_ne (small : bn < MAXFILE) {bn' : Nat} (small' : bn' < MAXFILE)
    (different : bn' ≠ bn) : mapped after ip' bn' = mapped disk ip bn' := by
  by_cases zero : pointer disk ip.addrs (slotOf bn') = 0
  · have stays : pointer after ip'.addrs (slotOf bn') = 0 := by
      by_contra nonzero
      have same := walk.filled_data inUse ⟨zero, nonzero⟩ (slotOf_isData bn')
      exact different (slotOf_injective small' small same)
    rw [mapped, mapped, stays, zero]
  · exact step.kept _ zero

/-- A walk that failed has mapped nothing. -/
theorem mapped_of_failed (failed : addr = 0) (small : bn < MAXFILE) {bn' : Nat}
    (small' : bn' < MAXFILE) : mapped after ip' bn' = mapped disk ip bn' := by
  by_cases same : bn' = bn
  · subst same
    have none : pointer after ip'.addrs (slotOf bn') = 0 := walk.held.trans failed
    have before : pointer disk ip.addrs (slotOf bn') = 0 := by
      by_contra nonzero
      exact nonzero ((step.kept _ nonzero).symm.trans none)
    rw [mapped, mapped, none, before]
  · exact mapped_of_ne inUse walk step small small' same

omit inUse in
/-- The block of a walk was mapped already, or was free. -/
theorem mapped_or_free (found : addr ≠ 0) :
    mapped disk ip bn = addr ∨ mapped disk ip bn = 0 ∧ addr ∈ freeBlocks sb disk := by
  have held := walk.held
  by_cases zero : pointer disk ip.addrs (slotOf bn) = 0
  · have taken := step.taken (slotOf bn) ⟨zero, held ▸ found⟩
    rw [held] at taken
    exact Or.inr ⟨zero, taken.1, taken.2.1⟩
  · exact Or.inl ((step.kept _ zero).symm.trans held)

omit inUse walk in
/-- As many blocks are marked as slots were filled. -/
theorem newlyMarked_ncard
    (onPath : ∀ slot, Filled disk ip.addrs after ip'.addrs slot → slot ∈ (slotOf bn).path) :
    (newlyMarked sb disk after).ncard ≤ 3 := by
  have sub : {slot | Filled disk ip.addrs after ip'.addrs slot} ⊆ missing disk ip.addrs {bn} :=
    fun slot filled => ⟨filled.1, bn, rfl, onPath slot filled⟩
  calc (newlyMarked sb disk after).ncard
      = (Set.image (pointer after ip'.addrs)
          {slot | Filled disk ip.addrs after ip'.addrs slot}).ncard := by
        rw [newlyMarked, step.newly_marked]
    _ ≤ {slot | Filled disk ip.addrs after ip'.addrs slot}.ncard :=
        Set.ncard_image_le (Set.toFinite _)
    _ ≤ (missing disk ip.addrs {bn}).ncard := Set.ncard_le_ncard sub (Set.toFinite _)
    _ ≤ 3 := missing_ncard_le _ _ _

/-- What a failed walk has allocated are index blocks of the inode. -/
theorem attached_of_failed (failed : addr = 0) {b : Nat} (new : b ∈ newlyMarked sb disk after) :
    Attached sb disk after ip' b := by
  have none : pointer after ip'.addrs (slotOf bn) = 0 := walk.held.trans failed
  have index : ∀ slot, Filled disk ip.addrs after ip'.addrs slot → ¬ slot.IsData := by
    intro slot filled data
    rw [walk.filled_data inUse filled data] at filled
    exact filled.2 none
  obtain ⟨slot, filled, holds⟩ := step.handed b new.1.1 new.1.2 new.2
  refine ⟨slot, index slot filled, holds, fun i nonzero => ?_⟩
  obtain ⟨child, here, onlyDoubly⟩ := child_of_index (index slot filled) i
  have atChild : pointer after ip'.addrs child = uintAt (after b) i := by
    rw [pointer_child here, entry, if_neg filled.2, holds]
  have before : pointer disk ip.addrs child = 0 := by
    by_contra present
    exact parent_ne_zero here present filled.1
  have isFilled : Filled disk ip.addrs after ip'.addrs child := ⟨before, atChild ▸ nonzero⟩
  obtain ⟨isDoubly, rfl⟩ := onlyDoubly (index child isFilled)
  have taken := step.taken _ isFilled
  rw [atChild] at taken
  exact ⟨isDoubly, atChild.symm, ⟨taken.1, taken.2.1⟩, taken.2.2⟩

end Walk

section Calls

variable {sb : Superblock} {inodes : Nat → Dinode} {disk after : Disk} {ip ip' : Inode}
  {bn addr : Nat} (layout : sb.WellFormed) (owned : Owned sb disk (withInode inodes ip))
  (inUse : InUse sb (withInode inodes ip) ip.inum) (small : bn < MAXFILE)

include layout owned inUse small

/-- A block that is mapped is found, and nothing is allocated. -/
theorem bmap_mapped (present : mapped disk ip bn ≠ 0) :
    bmap sb disk ip bn = .ok (disk, ip, mapped disk ip bn) := by
  obtain ⟨after, ip', addr, run, walk⟩ := bmap_spec layout owned inUse small
  obtain ⟨rfl, rfl⟩ := walk.present present
  rw [run, ← walk.held]
  rfl

/-- `bmap` fails only when fewer blocks are free than are missing on the way. -/
theorem bmap_succeeds
    (enough : (missing disk ip.addrs {bn}).ncard ≤ (freeBlocks sb disk).ncard) :
    ∃ after ip' addr, bmap sb disk ip bn = .ok (after, ip', addr) ∧ addr ≠ 0 := by
  obtain ⟨after, ip', addr, -, run, -, walk, step, onPath, -⟩ := bmap_log layout owned inUse small
  refine ⟨after, ip', addr, run, fun failed => absurd enough (not_le.mpr ?_)⟩
  have tree : Tree sb after ip'.addrs := by
    have all := walk.grows.owned.tree (walk.inUse inUse)
    rwa [withInode_self] at all
  exact step.no_room tree (fun slot filled => ⟨bn, rfl, onPath slot filled⟩) (walk.full failed) rfl
    (walk.held.trans failed)

/-- **`bmap` extends the block map.** -/
theorem bmap_extends_map :
    ∃ after ip' addr, bmap sb disk ip bn = .ok (after, ip', addr) ∧
      Owned sb after (withInode inodes ip') ∧
      (∀ bn', bn' < MAXFILE → bn' ≠ bn → mapped after ip' bn' = mapped disk ip bn') ∧
      (newlyMarked sb disk after).ncard ≤ 3 ∧
      (addr ≠ 0 → mapped after ip' bn = addr ∧ bmap sb after ip' bn = .ok (after, ip', addr) ∧
        (mapped disk ip bn = addr ∨ mapped disk ip bn = 0 ∧ addr ∈ freeBlocks sb disk)) ∧
      (addr = 0 → (∀ bn', bn' < MAXFILE → mapped after ip' bn' = mapped disk ip bn') ∧
        (∀ b ∈ newlyMarked sb disk after, Attached sb disk after ip' b) ∧
        ∀ later inodes', Owned sb later (withInode inodes' ip') →
          (missing later ip'.addrs {bn}).ncard ≤ (freeBlocks sb later).ncard →
          ∃ last ip'' addr', bmap sb later ip' bn = .ok (last, ip'', addr') ∧ addr' ≠ 0) := by
  obtain ⟨after, ip', addr, -, run, -, walk, step, onPath, -⟩ := bmap_log layout owned inUse small
  have inUse' := walk.inUse inUse
  refine ⟨after, ip', addr, run, walk.grows.owned,
    fun bn' small' => mapped_of_ne inUse walk step small small',
    newlyMarked_ncard step onPath, fun found => ?_, fun failed => ?_⟩
  · have holds : mapped after ip' bn = addr := walk.held
    refine ⟨holds, ?_, mapped_or_free walk step found⟩
    rw [bmap_mapped layout walk.grows.owned inUse' small (holds ▸ found), holds]
  · refine ⟨fun bn' small' => mapped_of_failed inUse walk step failed small small',
      fun b new => attached_of_failed inUse walk step failed new,
      fun later inodes' owned' enough => bmap_succeeds layout owned' ?_ small enough⟩
    unfold InUse at inUse' ⊢
    rw [withInode_self] at inUse' ⊢
    exact inUse'

end Calls

/-- **What a write inside one block takes.** It stores everything, and as many blocks are no longer free as
were missing on the way to the block, or nothing, because fewer were free. -/
theorem writei_takes {sb : Superblock} {disk : Disk} {ip : Inode} (image : Image sb disk)
    (cached : Cached sb disk ip) {src : CopyIn} (quiet : ∀ tot m, src.fault tot m = none)
    {off n : UInt32} (accepts : ¬ Rejects ip.size off n) (positive : 0 < n.toNat)
    (fits : off.toNat % BSIZE + n.toNat ≤ BSIZE) :
    ∃ after ip' tot, writei sb disk ip src off n = .ok (after, ip', ((tot : Nat) : Int)) ∧
      ((tot = n.toNat ∧ (freeBlocks sb after).ncard +
          (missing disk ip.addrs {off.toNat / BSIZE}).ncard = (freeBlocks sb disk).ncard) ∨
        tot < n.toNat ∧ (freeBlocks sb disk).ncard <
          (missing disk ip.addrs {off.toNat / BSIZE}).ncard) := by
  obtain ⟨after, ip', tot, _, run, -, logs⟩ := writei_log image cached quiet accepts
  have tree : Tree sb after ip'.addrs := by
    have all := logs.image.owned.tree logs.cached.inUse
    rwa [← logs.cached.same] at all
  have inside : ∀ k, off.toNat ≤ k → k < off.toNat + n.toNat → k / BSIZE = off.toNat / BSIZE := by
    intro k lower upper
    unfold BSIZE at *
    omega
  have filled : ∀ slot, Filled disk ip.addrs after ip'.addrs slot →
      ∃ bn ∈ ({off.toNat / BSIZE} : Set Nat), slot ∈ (slotOf bn).path := by
    intro slot isFilled
    obtain ⟨k, lower, upper, member⟩ := logs.filled slot isFilled
    exact ⟨_, rfl, inside k lower upper ▸ member⟩
  refine ⟨after, ip', tot, run, ?_⟩
  rcases Nat.lt_or_ge tot n.toNat with short | all
  · obtain ⟨full, zero⟩ := logs.full short
    rw [inside _ (Nat.le_add_right _ _) (by omega)] at zero
    exact Or.inr ⟨short, logs.step.no_room tree filled full rfl zero⟩
  · refine Or.inl ⟨le_antisymm logs.upper all, logs.step.room tree filled ?_⟩
    rintro bn rfl
    exact logs.mapped off.toNat le_rfl (by omega)

/-! ### A walk that stops at its last step -/

/-- An image with two data blocks, both free. -/
def pairSuperblock : Superblock :=
  { size := 6, nblocks := 2, ninodes := 2, inodestart := 2, bmapstart := 3 }

def pairDisk : Disk := fun b i => if b = 3 ∧ i = 0 then 15 else 0

/-- The inodes of that image: none but the file in memory. -/
def pairInodes : Nat → Dinode := withInode (fun _ => Dinode.zero) smallInode

theorem pairSuperblock_wellFormed : pairSuperblock.WellFormed := by
  refine ⟨fun inum inside => ?_, fun b inside => ?_, by decide⟩
  · have small : inum < 2 := inside
    interval_cases inum <;> decide
  · have small : b < 6 := inside
    interval_cases b <;> decide

theorem inUse_pair : InUse pairSuperblock pairInodes smallInode.inum := by decide

theorem owned_pair : Owned pairSuperblock pairDisk pairInodes := by
  have none : ∀ owner, reference pairSuperblock pairDisk pairInodes owner = none := by
    rintro ⟨n, slot⟩
    refine reference_eq_none.mpr (Or.inr ?_)
    have addrs : (pairInodes n).addrs = fun _ => 0 := by
      by_cases isOne : n = 1
      · rw [isOne]
        rfl
      · rw [pairInodes, withInode_of_ne _ _ isOne]
        rfl
    rw [addrs, pointer_zero]
  refine ⟨fun b metadata => ?_, fun held _ => ?_, fun b => ⟨fun live => ?_, fun held => ?_⟩⟩
  · have small : b < 4 := metadata
    interval_cases b <;> decide
  · rw [none] at held
    cases held
  · obtain ⟨lower, upper, used⟩ := live
    have small : b < 6 := upper
    have large : 4 ≤ b := lower
    interval_cases b <;> cases used
  · obtain ⟨owner, held⟩ := held
    rw [none] at held
    cases held

/-- Two free blocks are not enough for the first doubly-indirect block of an empty file: the call fails
after it has attached two index blocks. -/
theorem bmap_extends_map_pair : ∃ after ip', bmap pairSuperblock pairDisk smallInode 267 =
    .ok (after, ip', 0) ∧ ∀ b ∈ newlyMarked pairSuperblock pairDisk after,
      Attached pairSuperblock pairDisk after ip' b := by
  obtain ⟨after, ip', addr, run, -, -, -, -, zero⟩ := bmap_extends_map pairSuperblock_wellFormed
    owned_pair inUse_pair (show 267 < MAXFILE by decide)
  have failed : (bmap pairSuperblock pairDisk smallInode 267).toOption.any
      fun result => result.2.2 = 0 := by
    decide +kernel
  rw [run] at failed
  have isZero : addr = 0 := of_decide_eq_true failed
  rw [isZero] at run
  exact ⟨after, ip', run, (zero isZero).2.1⟩

/-- The first of the two index blocks is not empty: it names the second one. -/
theorem new_index_block_not_empty : pairSuperblock.WellFormed ∧
    Owned pairSuperblock pairDisk pairInodes ∧ InUse pairSuperblock pairInodes smallInode.inum ∧
    ∃ after ip', bmap pairSuperblock pairDisk smallInode 267 = .ok (after, ip', 0) ∧
      4 ∈ newlyMarked pairSuperblock pairDisk after ∧ ip'.addrs ⟨NDIRECT + 1, doubly_lt⟩ = 4 ∧
      uintAt (after 4) 0 = 5 := by
  refine ⟨pairSuperblock_wellFormed, owned_pair, inUse_pair, ?_⟩
  have computed : (bmap pairSuperblock pairDisk smallInode 267).toOption.any fun result =>
      result.2.2 = 0 && result.2.1.addrs ⟨NDIRECT + 1, doubly_lt⟩ = 4 && uintAt (result.1 4) 0 = 5 &&
        marked pairSuperblock result.1 4 := by
    decide +kernel
  cases run : bmap pairSuperblock pairDisk smallInode 267 with
  | error halt =>
    rw [run] at computed
    cases computed
  | ok result =>
    obtain ⟨after, ip', addr⟩ := result
    rw [run] at computed
    simp only [Except.toOption, Option.any_some, Bool.and_eq_true, decide_eq_true_eq] at computed
    obtain ⟨⟨⟨rfl, root⟩, first⟩, set⟩ := computed
    exact ⟨after, ip', rfl, ⟨⟨by decide, by decide⟩, set⟩, root, first⟩

end Csc3150.FileSystem
