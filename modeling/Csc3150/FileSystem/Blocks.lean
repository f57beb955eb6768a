/-
**The block allocator: `balloc` and `bfree`.**

`marked sb disk b` is bit `b` of the free bit map. `balloc` scans the map from block 0, one bitmap
block after the other, marks the first clear bit and zeroes that block; `bfree` clears a bit and
panics when it was clear already.

* `balloc_cases` — with the metadata marked, either every block is marked and `balloc` returns 0 and
  changes nothing, or it hands out the least unmarked block (`Allocated`);
* `bfree_spec` — freeing a marked block clears exactly its bit (`Freed`);
* `foldlM_bfree` — a loop of `bfree` over pairwise different marked blocks never panics.
-/

import Csc3150.FileSystem.Disk
import Csc3150.Library.Search

namespace Csc3150.FileSystem

open ByteBuffer Search

/-- The ways a path through the file system stops for good: its panics, and a sleep on a lock that
is not released. -/
inductive Halt where
  /-- `freeing free block` -/
  | freeingFreeBlock
  /-- `bmap: out of range` -/
  | bmapOutOfRange
  /-- `iget: no inodes` -/
  | igetNoInodes
  /-- `ilock` -/
  | ilock
  /-- `ilock: no type` -/
  | ilockNoType
  /-- `iunlock` -/
  | iunlock
  /-- `dirlookup not DIR` -/
  | dirlookupNotDir
  /-- `dirlookup read` -/
  | dirlookupRead
  /-- `dirlink read` -/
  | dirlinkRead
  /-- `isdirempty: readi` -/
  | isdiremptyReadi
  /-- `unlink: nlink < 1` -/
  | unlinkNlink
  /-- `unlink: writei` -/
  | unlinkWritei
  /-- asleep in `acquiresleep` -/
  | asleep
  /-- `fileclose` -/
  | fileclose
  /-- `filedup` -/
  | filedup
  /-- `fileread` -/
  | fileread
  /-- `filewrite` -/
  | filewrite
  deriving DecidableEq

/-! ### Where things are -/

/-- The first data block: the image ends with its `nblocks` data blocks. -/
def Superblock.dataStart (sb : Superblock) : Nat := sb.size - sb.nblocks

/-- The layout of a file system image: inode blocks, then the free bit map, then data blocks, in an
image small enough for the `int` block counter of `balloc`. -/
structure Superblock.WellFormed (sb : Superblock) : Prop where
  inodes_below : ∀ inum, inum < sb.ninodes → IBLOCK inum sb < sb.bmapstart
  bitmap_below : ∀ b, b < sb.size → BBLOCK b sb < sb.dataStart
  size_le : sb.size ≤ 2 ^ 31 - BPB

/-- Blocks that hold no part of the free bit map. -/
def Superblock.Outside (sb : Superblock) (b : Nat) : Prop := b < sb.bmapstart ∨ sb.dataStart ≤ b

theorem Superblock.WellFormed.ne_BBLOCK {sb : Superblock} (layout : sb.WellFormed) {b c : Nat}
    (upper : b < sb.size) (outside : sb.Outside c) : c ≠ BBLOCK b sb := by
  have below := layout.bitmap_below b upper
  rcases outside with lower | higher
  · have : sb.bmapstart ≤ BBLOCK b sb := Nat.le_add_left _ _
    omega
  · omega

theorem Superblock.WellFormed.outside_IBLOCK {sb : Superblock} (layout : sb.WellFormed)
    {inum : Nat} (inside : inum < sb.ninodes) : sb.Outside (IBLOCK inum sb) :=
  Or.inl (layout.inodes_below inum inside)

/-! ### The free bit map -/

/-- Is block `b` marked in use? -/
def marked (sb : Superblock) (disk : Disk) (b : Nat) : Bool :=
  bit (disk (BBLOCK b sb)) (b % BPB)

/-- The scan of `balloc`: the first clear bit, as the pair `(b, bi)` of its loop counters. -/
def firstFree (sb : Superblock) (disk : Disk) : Option (Nat × Nat) :=
  search (fun k =>
    let b := k * BPB
    let bp := disk (BBLOCK b sb)
    search (fun bi => if bit bp bi = false then some (b, bi) else none)
      (min BPB (sb.size - b)) 0) ((sb.size + BPB - 1) / BPB) 0

/-- How a function reaches the cached blocks: what `bread` finds, a changed buffer, and a changed buffer
that is passed to `log_write`. -/
structure Buffers (σ : Type) where
  bread : σ → Disk
  modify : σ → Nat → Block → σ
  log_write : σ → Nat → Block → σ

/-- The blocks alone, without the log. -/
def Buffers.disk : Buffers Disk := ⟨id, logWrite, logWrite⟩

section Buffers

variable {σ : Type} (buf : Buffers σ) (sb : Superblock)

/-- Zero a block. -/
def bzeroWith (s : σ) (bno : Nat) : σ := buf.log_write s bno fun _ => 0

/-- Allocate a zeroed disk block; 0 if out of disk space. -/
def ballocWith (s : σ) : σ × Nat :=
  match firstFree sb (buf.bread s) with
  | some (b, bi) =>
    let s := buf.log_write s (BBLOCK b sb) (setBit (buf.bread s (BBLOCK b sb)) bi)
    (bzeroWith buf s (b + bi), b + bi)
  | none => (s, 0)

/-- Free a disk block. -/
def bfreeWith (s : σ) (b : Nat) : Except Halt σ :=
  let bp := buf.bread s (BBLOCK b sb)
  let bi := b % BPB
  if bit bp bi = false then .error .freeingFreeBlock
  else .ok (buf.log_write s (BBLOCK b sb) (clearBit bp bi))

end Buffers

def balloc (sb : Superblock) (disk : Disk) : Disk × Nat := ballocWith .disk sb disk

def bfree (sb : Superblock) (disk : Disk) (b : Nat) : Except Halt Disk := bfreeWith .disk sb disk b

/-! ### The scan -/

theorem firstFree_none {sb : Superblock} {disk : Disk} (full : firstFree sb disk = none)
    {b : Nat} (upper : b < sb.size) : marked sb disk b = true := by
  have outer := search_eq_none_iff.mp full (b / BPB) (Nat.zero_le _) (by
    rw [BPB_eq]
    omega)
  have inner := search_eq_none_iff.mp outer (b % BPB) (Nat.zero_le _) (by
    rw [BPB_eq]
    omega)
  have sameBlock : BBLOCK (b / BPB * BPB) sb = BBLOCK b sb := by
    unfold BBLOCK
    rw [BPB_eq]
    omega
  rw [marked, ← sameBlock]
  by_contra clear
  rw [if_pos (Bool.eq_false_of_not_eq_true clear)] at inner
  cases inner

/-- The scan stops at the least unmarked block. -/
theorem firstFree_some {sb : Superblock} {disk : Disk} {b bi : Nat}
    (found : firstFree sb disk = some (b, bi)) :
    b + bi < sb.size ∧ BBLOCK b sb = BBLOCK (b + bi) sb ∧ bi = (b + bi) % BPB ∧
      marked sb disk (b + bi) = false ∧ ∀ c, c < b + bi → marked sb disk c = true := by
  obtain ⟨k, -, -, outer, before⟩ := search_eq_some_iff.mp found
  obtain ⟨i, -, upper, inner, earlier⟩ := search_eq_some_iff.mp outer
  split at inner
  case isFalse => cases inner
  case isTrue clear =>
  simp only [Option.some.injEq, Prod.mk.injEq] at inner
  obtain ⟨rfl, rfl⟩ := inner
  have bits : i < BPB ∧ k * BPB + i < sb.size := by omega
  have sameBlock : BBLOCK (k * BPB) sb = BBLOCK (k * BPB + i) sb := by
    unfold BBLOCK
    rw [BPB_eq] at *
    omega
  have sameBit : i = (k * BPB + i) % BPB := by
    rw [BPB_eq] at *
    omega
  refine ⟨bits.2, sameBlock, sameBit, ?_, fun c less => ?_⟩
  · rw [marked, ← sameBlock, ← sameBit]
    exact clear
  · by_cases sameRow : c / BPB = k
    · have row : BBLOCK (k * BPB) sb = BBLOCK c sb := by
        unfold BBLOCK
        rw [BPB_eq] at *
        omega
      have none := earlier (c % BPB) (Nat.zero_le _) (by rw [BPB_eq] at *; omega)
      rw [marked, ← row]
      by_contra clear'
      rw [if_pos (Bool.eq_false_of_not_eq_true clear')] at none
      cases none
    · have none := before (c / BPB) (Nat.zero_le _) (by rw [BPB_eq] at *; omega)
      have inner := search_eq_none_iff.mp none (c % BPB) (Nat.zero_le _) (by
        rw [BPB_eq] at *
        omega)
      have row : BBLOCK (c / BPB * BPB) sb = BBLOCK c sb := by
        unfold BBLOCK
        rw [BPB_eq]
        omega
      rw [marked, ← row]
      by_contra clear'
      rw [if_pos (Bool.eq_false_of_not_eq_true clear')] at inner
      cases inner

/-! ### Setting and clearing one bit -/

theorem marked_setBit (sb : Superblock) (disk : Disk) (b c : Nat) :
    marked sb (logWrite disk (BBLOCK b sb) (setBit (disk (BBLOCK b sb)) (b % BPB))) c =
      (decide (c = b) || marked sb disk c) := by
  by_cases sameBlock : BBLOCK c sb = BBLOCK b sb
  · have sameBit : c % BPB = b % BPB ↔ c = b := by
      unfold BBLOCK at sameBlock
      rw [BPB_eq] at *
      omega
    rw [marked, sameBlock, logWrite_self, bit_setBit, marked, sameBlock]
    simp only [sameBit]
  · have different : c ≠ b := fun equal => sameBlock (by rw [equal])
    rw [marked, logWrite_of_ne _ _ sameBlock, marked, decide_eq_false different, Bool.false_or]

theorem marked_clearBit (sb : Superblock) (disk : Disk) (b c : Nat) :
    marked sb (logWrite disk (BBLOCK b sb) (clearBit (disk (BBLOCK b sb)) (b % BPB))) c =
      (!decide (c = b) && marked sb disk c) := by
  by_cases sameBlock : BBLOCK c sb = BBLOCK b sb
  · have sameBit : c % BPB = b % BPB ↔ c = b := by
      unfold BBLOCK at sameBlock
      rw [BPB_eq] at *
      omega
    rw [marked, sameBlock, logWrite_self, bit_clearBit, marked, sameBlock]
    simp only [sameBit]
  · have different : c ≠ b := fun equal => sameBlock (by rw [equal])
    rw [marked, logWrite_of_ne _ _ sameBlock, marked, decide_eq_false different, Bool.not_false,
      Bool.true_and]

/-- Only the bitmap blocks decide what is marked. -/
theorem marked_logWrite {sb : Superblock} (layout : sb.WellFormed) (disk : Disk) {bno b : Nat}
    (data : Block) (outside : sb.Outside bno) (upper : b < sb.size) :
    marked sb (logWrite disk bno data) b = marked sb disk b := by
  rw [marked, logWrite_of_ne _ _ (layout.ne_BBLOCK upper outside).symm, marked]

/-! ### What `balloc` does -/

/-- Block `b` was free and has been handed out, marked and zeroed; nothing else changed. -/
structure Allocated (sb : Superblock) (disk after : Disk) (b : Nat) : Prop where
  lower : sb.dataStart ≤ b
  upper : b < sb.size
  free : marked sb disk b = false
  least : ∀ c, c < b → marked sb disk c = true
  zeroed : after b = fun _ => 0
  bits : ∀ c, c < sb.size → marked sb after c = (decide (c = b) || marked sb disk c)
  frame : ∀ c, sb.Outside c → c ≠ b → after c = disk c

section Buffers

variable {σ : Type} (buf : Buffers σ) {sb : Superblock} {s : σ} {b bi : Nat}

theorem ballocWith_none (scan : firstFree sb (buf.bread s) = none) : ballocWith buf sb s = (s, 0) := by
  rw [ballocWith, scan]

theorem ballocWith_some (scan : firstFree sb (buf.bread s) = some (b, bi)) :
    ballocWith buf sb s =
      (bzeroWith buf (buf.log_write s (BBLOCK b sb) (setBit (buf.bread s (BBLOCK b sb)) bi)) (b + bi),
        b + bi) := by
  rw [ballocWith, scan]

end Buffers

theorem balloc_none {sb : Superblock} {disk : Disk} (scan : firstFree sb disk = none) :
    balloc sb disk = (disk, 0) :=
  ballocWith_none .disk scan

theorem balloc_some {sb : Superblock} {disk : Disk} {b bi : Nat}
    (scan : firstFree sb disk = some (b, bi)) :
    balloc sb disk =
      (logWrite (logWrite disk (BBLOCK b sb) (setBit (disk (BBLOCK b sb)) bi)) (b + bi) fun _ => 0,
        b + bi) :=
  ballocWith_some .disk scan

/-- `balloc` fails exactly on a full disk and then changes nothing; otherwise it allocates. -/
theorem balloc_cases {sb : Superblock} (layout : sb.WellFormed) {disk : Disk}
    (metadata : ∀ b, b < sb.dataStart → marked sb disk b = true) :
    (balloc sb disk = (disk, 0) ∧ ∀ b, b < sb.size → marked sb disk b = true) ∨
      ∃ after b, balloc sb disk = (after, b) ∧ Allocated sb disk after b := by
  cases scan : firstFree sb disk with
  | none => exact Or.inl ⟨balloc_none scan, fun b upper => firstFree_none scan upper⟩
  | some counters =>
    obtain ⟨b, bi⟩ := counters
    obtain ⟨upper, sameBlock, sameBit, free, least⟩ := firstFree_some scan
    have lower : sb.dataStart ≤ b + bi := by
      by_contra below
      rw [metadata _ (by omega)] at free
      cases free
    refine Or.inr ⟨_, _, balloc_some scan, lower, upper, free, least, logWrite_self _ _ _, ?_, ?_⟩
    · intro c upperC
      rw [marked_logWrite layout _ _ (Or.inr lower) upperC, sameBlock]
      have step := marked_setBit sb disk (b + bi) c
      rwa [← sameBit] at step
    · intro c outside different
      rw [logWrite_of_ne _ _ different, sameBlock,
        logWrite_of_ne _ _ (layout.ne_BBLOCK upper outside)]

/-! ### What `bfree` does -/

/-- Exactly the blocks in `gone` left the set of marked blocks; nothing else changed. -/
structure Freed (sb : Superblock) (disk after : Disk) (gone : Nat → Prop) : Prop where
  bits : ∀ c, c < sb.size → (marked sb after c = true ↔ marked sb disk c = true ∧ ¬ gone c)
  frame : ∀ c, sb.Outside c → after c = disk c

theorem Freed.congr {sb : Superblock} {disk after : Disk} {gone other : Nat → Prop}
    (freed : Freed sb disk after gone) (same : ∀ c, other c ↔ gone c) :
    Freed sb disk after other :=
  ⟨fun c upper => by rw [freed.bits c upper, same], freed.frame⟩

theorem Freed.trans {sb : Superblock} {disk middle after : Disk} {first second : Nat → Prop}
    (left : Freed sb disk middle first) (right : Freed sb middle after second) :
    Freed sb disk after (fun c => first c ∨ second c) where
  bits c upper := by
    rw [right.bits c upper, left.bits c upper, not_or, and_assoc]
  frame c outside := (right.frame c outside).trans (left.frame c outside)

theorem bfree_clear {sb : Superblock} {disk : Disk} {b : Nat}
    (clear : bit (disk (BBLOCK b sb)) (b % BPB) = false) : bfree sb disk b = .error .freeingFreeBlock :=
  if_pos clear

theorem bfree_set {sb : Superblock} {disk : Disk} {b : Nat}
    (set : ¬ bit (disk (BBLOCK b sb)) (b % BPB) = false) :
    bfree sb disk b =
      .ok (logWrite disk (BBLOCK b sb) (clearBit (disk (BBLOCK b sb)) (b % BPB))) :=
  if_neg set

theorem bfree_spec {sb : Superblock} (layout : sb.WellFormed) {disk : Disk} {b : Nat}
    (upper : b < sb.size) (used : marked sb disk b = true) :
    ∃ after, bfree sb disk b = .ok after ∧ Freed sb disk after (· = b) := by
  have set : ¬ bit (disk (BBLOCK b sb)) (b % BPB) = false := by
    rw [← marked, used]
    exact Bool.noConfusion
  refine ⟨_, bfree_set set, fun c _ => ?_, fun c outside => ?_⟩
  · rw [marked_clearBit, Bool.and_eq_true, Bool.not_eq_true', decide_eq_false_iff_not, and_comm]
  · exact logWrite_of_ne _ _ (layout.ne_BBLOCK upper outside)

/-- `bfree` of a non-zero address, nothing otherwise. -/
def bfreeEntryWith {σ : Type} (buf : Buffers σ) (sb : Superblock) (s : σ) (addr : Nat) : Except Halt σ :=
  if addr ≠ 0 then bfreeWith buf sb s addr else .ok s

def bfreeEntry (sb : Superblock) (disk : Disk) (addr : Nat) : Except Halt Disk :=
  bfreeEntryWith .disk sb disk addr

theorem bfreeEntry_zero (sb : Superblock) (disk : Disk) : bfreeEntry sb disk 0 = .ok disk := rfl

theorem bfreeEntry_of_ne_zero (sb : Superblock) (disk : Disk) {addr : Nat} (nonzero : addr ≠ 0) :
    bfreeEntry sb disk addr = bfree sb disk addr := if_pos nonzero

/-- A loop that frees the non-zero addresses `f i`, which are marked and pairwise different. -/
theorem foldlM_bfree {sb : Superblock} (layout : sb.WellFormed) {ι : Type*} (f : ι → Nat) :
    ∀ (list : List ι) (disk : Disk),
      (∀ i ∈ list, f i ≠ 0 → f i < sb.size ∧ marked sb disk (f i) = true) →
      list.Pairwise (fun i j => f i = f j → f i = 0) →
      ∃ after, list.foldlM (fun disk i => bfreeEntry sb disk (f i)) disk = .ok after ∧
        Freed sb disk after (fun b => b ≠ 0 ∧ ∃ i ∈ list, f i = b) := by
  intro list
  induction list with
  | nil =>
    intro disk _ _
    exact ⟨disk, rfl, fun c _ => by simp, fun _ _ => rfl⟩
  | cons i rest ih =>
    intro disk used apart
    obtain ⟨headApart, restApart⟩ := List.pairwise_cons.mp apart
    by_cases zero : f i = 0
    · obtain ⟨after, run, freed⟩ := ih disk (fun j member => used j (.tail _ member)) restApart
      refine ⟨after, ?_, freed.congr fun c => ?_⟩
      · rw [List.foldlM_cons, zero, bfreeEntry_zero]
        exact run
      · rw [List.exists_mem_cons_iff, zero]
        exact ⟨fun ⟨nonzero, either⟩ => ⟨nonzero, either.resolve_left fun same => nonzero same.symm⟩,
          fun ⟨nonzero, later⟩ => ⟨nonzero, Or.inr later⟩⟩
    · obtain ⟨small, isUsed⟩ := used i List.mem_cons_self zero
      obtain ⟨middle, here, freedHere⟩ := bfree_spec layout small isUsed
      have usedRest : ∀ j ∈ rest, f j ≠ 0 → f j < sb.size ∧ marked sb middle (f j) = true := by
        intro j member nonzero
        obtain ⟨smallJ, usedJ⟩ := used j (.tail _ member) nonzero
        exact ⟨smallJ, (freedHere.bits _ smallJ).mpr
          ⟨usedJ, fun same => zero (headApart j member same.symm)⟩⟩
      obtain ⟨after, run, freed⟩ := ih middle usedRest restApart
      refine ⟨after, ?_, (freedHere.trans freed).congr fun c => ?_⟩
      · rw [List.foldlM_cons, bfreeEntry_of_ne_zero sb disk zero, here]
        exact run
      · rw [List.exists_mem_cons_iff]
        constructor
        · rintro ⟨nonzero, same | later⟩
          · exact Or.inl same.symm
          · exact Or.inr ⟨nonzero, later⟩
        · rintro (rfl | ⟨nonzero, later⟩)
          · exact ⟨zero, Or.inl rfl⟩
          · exact ⟨nonzero, Or.inr later⟩

end Csc3150.FileSystem
