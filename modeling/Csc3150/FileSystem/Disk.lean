/-
**The disk: blocks, on-disk inodes, and the views the kernel takes of a block.**

`bread`, `log_write` and `brelse` give the file system one coherent array of blocks, so a disk is a
function from block numbers to blocks and `logWrite` replaces one block. A block is read as bytes,
as an array of `uint` (index blocks), as an array of `struct dinode` (inode blocks) or as bits (the
free bit map); the laws of each view are stated here once, on top of `ByteBuffer`.

`kernel/param.h` and `kernel/stat.h` give the constants that `fs.h` does not define.
-/

import Csc3150.Library.ByteBuffer
import Mathlib.Data.Fintype.Pi
import Mathlib.Data.Fin.VecNotation

namespace Csc3150.FileSystem

open ByteBuffer

/-! ### Constants of `fs.h`, `param.h` and `stat.h` -/

/-- Root i-number. -/
def ROOTINO : Nat := 1
/-- Device number of the file system's disk. -/
def ROOTDEV : Nat := 1
/-- Block size. -/
def BSIZE : Nat := 1024
/-- Direct blocks: one entry of the original twelve is given up for the doubly-indirect block. -/
def NDIRECT : Nat := 11
/-- Entries of an index block. -/
def NINDIRECT : Nat := BSIZE / 4
def DNINDIRECT : Nat := NINDIRECT * NINDIRECT
def MAXFILE : Nat := NDIRECT + NINDIRECT + DNINDIRECT
/-- Inodes per block. -/
def IPB : Nat := BSIZE / 64
/-- Bitmap bits per block. -/
def BPB : Nat := BSIZE * 8

/-- The file types of `stat.h`; zero marks a free inode. -/
def T_DIR : Int16 := 1
def T_FILE : Int16 := 2
def T_DEVICE : Int16 := 3
/-- The type added for symbolic links. -/
def T_SYMLINK : Int16 := 4

theorem direct_le : NDIRECT ≤ NDIRECT + 2 := Nat.le_add_right _ _
theorem indirect_lt : NDIRECT < NDIRECT + 2 := Nat.lt_add_of_pos_right Nat.two_pos
theorem doubly_lt : NDIRECT + 1 < NDIRECT + 2 := Nat.lt_succ_self _
theorem NINDIRECT_pos : 0 < NINDIRECT := by decide
theorem BPB_eq : BPB = 8192 := rfl

/-- The disk layout, as the super block describes it. -/
structure Superblock where
  /-- Size of file system image (blocks). -/
  size : Nat
  /-- Number of data blocks. -/
  nblocks : Nat
  /-- Number of inodes. -/
  ninodes : Nat
  /-- Block number of first inode block. -/
  inodestart : Nat
  /-- Block number of first free map block. -/
  bmapstart : Nat
  deriving DecidableEq

/-- Block containing inode `i`. -/
def IBLOCK (i : Nat) (sb : Superblock) : Nat := i / IPB + sb.inodestart

/-- Block of free map containing bit for block `b`. -/
def BBLOCK (b : Nat) (sb : Superblock) : Nat := b / BPB + sb.bmapstart

/-! ### Blocks -/

/-- The bytes of a block; offsets `0` to `BSIZE - 1` are in use. -/
abbrev Block := Buffer

/-- The coherent array of blocks behind `bread`, `log_write` and `brelse`. -/
abbrev Disk := Nat → Block

/-- Store the modified buffer of block `bno`. -/
def logWrite (disk : Disk) (bno : Nat) (data : Block) : Disk := Function.update disk bno data

@[simp] theorem logWrite_self (disk : Disk) (bno : Nat) (data : Block) :
    logWrite disk bno data bno = data := Function.update_self _ _ _

theorem logWrite_of_ne (disk : Disk) {bno other : Nat} (data : Block) (different : other ≠ bno) :
    logWrite disk bno data other = disk other := Function.update_of_ne different _ _

/-! ### Arrays of `uint` and of `short` -/

/-- Entry `i` of a block read as an array of `uint`. -/
def uintAt (data : Block) (i : Nat) : Nat := getLE data (4 * i) 4

/-- Store entry `i` of a block read as an array of `uint`. -/
def setUint (data : Block) (i value : Nat) : Block := putLE data (4 * i) 4 value

/-- Entry `i` of a block read as an array of `short`. -/
def shortAt (data : Block) (i : Nat) : Int16 := Int16.ofNat (getLE data (2 * i) 2)

/-- Store entry `i` of a block read as an array of `short`. -/
def setShort (data : Block) (i : Nat) (value : Int16) : Block :=
  putLE data (2 * i) 2 value.toUInt16.toNat

theorem uintAt_lt (data : Block) (i : Nat) : uintAt data i < 2 ^ 32 := getLE_lt data (4 * i) 4

@[simp] theorem uintAt_zero (i : Nat) : uintAt (fun _ => 0) i = 0 := rfl

theorem uintAt_setUint_self (data : Block) (i : Nat) {value : Nat} (fits : value < 2 ^ 32) :
    uintAt (setUint data i value) i = value := by
  rw [uintAt, setUint, getLE_putLE]
  exact Nat.mod_eq_of_lt fits

theorem uintAt_setUint_of_ne (data : Block) {i j : Nat} (value : Nat) (different : j ≠ i) :
    uintAt (setUint data i value) j = uintAt data j :=
  getLE_putLE_of_disjoint data (by omega)

theorem shortAt_setShort_self (data : Block) (i : Nat) (value : Int16) :
    shortAt (setShort data i value) i = value := by
  have width : value.toUInt16.toNat % 256 ^ 2 = value.toUInt16.toNat :=
    Nat.mod_eq_of_lt value.toUInt16.toNat_lt
  rw [shortAt, setShort, getLE_putLE, width, ← UInt16.toInt16_ofNat', UInt16.ofNat_toNat,
    Int16.toInt16_toUInt16]

theorem shortAt_setShort_of_ne (data : Block) {i j : Nat} (value : Int16) (different : j ≠ i) :
    shortAt (setShort data i value) j = shortAt data j := by
  rw [shortAt, setShort, getLE_putLE_of_disjoint data (by omega), shortAt]

/-- A `uint` entry shares no byte with `short` entry `i` unless it covers it. -/
theorem uintAt_setShort (data : Block) {i j : Nat} (value : Int16) (apart : j ≠ i / 2) :
    uintAt (setShort data i value) j = uintAt data j :=
  getLE_putLE_of_disjoint data (by omega)

theorem shortAt_setUint (data : Block) {i j : Nat} (value : Nat) (apart : i ≠ j / 2) :
    shortAt (setUint data i value) j = shortAt data j := by
  rw [shortAt, setUint, getLE_putLE_of_disjoint data (by omega), shortAt]

/-- Store `f 0, …, f (count - 1)` in the `uint` entries from `base` on. -/
def setUints (data : Block) (base : Nat) (f : Nat → Nat) : Nat → Block
  | 0 => data
  | count + 1 => setUint (setUints data base f count) (base + count) (f count)

theorem uintAt_setUints_inside (data : Block) (base : Nat) {f : Nat → Nat} {count i : Nat}
    (inside : i < count) (fits : f i < 2 ^ 32) :
    uintAt (setUints data base f count) (base + i) = f i := by
  induction count with
  | zero => omega
  | succ count ih =>
    by_cases last : i = count
    · subst last
      exact uintAt_setUint_self _ _ fits
    · rw [setUints, uintAt_setUint_of_ne _ _ (by omega), ih (by omega)]

theorem uintAt_setUints_outside (data : Block) {base : Nat} (f : Nat → Nat) {count i : Nat}
    (outside : i < base ∨ base + count ≤ i) :
    uintAt (setUints data base f count) i = uintAt data i := by
  induction count with
  | zero => rfl
  | succ count ih => rw [setUints, uintAt_setUint_of_ne _ _ (by omega), ih (by omega)]

theorem shortAt_setUints (data : Block) {base : Nat} (f : Nat → Nat) {count j : Nat}
    (outside : j < 2 * base ∨ 2 * (base + count) ≤ j) :
    shortAt (setUints data base f count) j = shortAt data j := by
  induction count with
  | zero => rfl
  | succ count ih => rw [setUints, shortAt_setUint _ _ (by omega), ih (by omega)]

/-! ### On-disk inodes -/

/-- On-disk inode structure. -/
@[ext] structure Dinode where
  /-- File type. -/
  type : Int16
  /-- Major device number (`T_DEVICE` only). -/
  major : Int16
  /-- Minor device number (`T_DEVICE` only). -/
  minor : Int16
  /-- Number of links to inode in file system. -/
  nlink : Int16
  /-- Size of file (bytes). -/
  size : Nat
  /-- Data block addresses. -/
  addrs : Fin (NDIRECT + 2) → Nat

/-- The `uint` fields of the inode fit their width. -/
structure Dinode.Fits (dip : Dinode) : Prop where
  size_lt : dip.size < 2 ^ 32
  addrs_lt : ∀ i, dip.addrs i < 2 ^ 32

/-- A zeroed `struct dinode`. -/
def Dinode.zero : Dinode :=
  { type := 0, major := 0, minor := 0, nlink := 0, size := 0, addrs := fun _ => 0 }

theorem Dinode.zero_fits : Dinode.zero.Fits := ⟨Nat.two_pow_pos 32, fun _ => Nat.two_pow_pos 32⟩

/-- `(struct dinode*)bp->data + k`: 64 bytes, four `short` and then fourteen `uint`. -/
def dinodeAt (data : Block) (k : Nat) : Dinode where
  type := shortAt data (32 * k)
  major := shortAt data (32 * k + 1)
  minor := shortAt data (32 * k + 2)
  nlink := shortAt data (32 * k + 3)
  size := uintAt data (16 * k + 2)
  addrs i := uintAt data (16 * k + 3 + i.val)

/-- Store a `struct dinode` at index `k`. -/
def putDinode (data : Block) (k : Nat) (dip : Dinode) : Block :=
  let data := setShort data (32 * k) dip.type
  let data := setShort data (32 * k + 1) dip.major
  let data := setShort data (32 * k + 2) dip.minor
  let data := setShort data (32 * k + 3) dip.nlink
  let data := setUint data (16 * k + 2) dip.size
  setUints data (16 * k + 3) (fun i => if h : i < NDIRECT + 2 then dip.addrs ⟨i, h⟩ else 0)
    (NDIRECT + 2)

theorem dinodeAt_fits (data : Block) (k : Nat) : (dinodeAt data k).Fits :=
  ⟨uintAt_lt _ _, fun _ => uintAt_lt _ _⟩

theorem dinodeAt_putDinode_self (data : Block) (k : Nat) {dip : Dinode} (fits : dip.Fits) :
    dinodeAt (putDinode data k dip) k = dip := by
  have short : ∀ j, j < 4 → ∀ (inner : Block) (f : Nat → Nat) (value : Nat),
      shortAt (setUints (setUint inner (16 * k + 2) value) (16 * k + 3) f (NDIRECT + 2))
        (32 * k + j) = shortAt inner (32 * k + j) := by
    intro j small inner f value
    rw [shortAt_setUints _ _ (by unfold NDIRECT; omega), shortAt_setUint _ _ (by omega)]
  ext i
  · show shortAt _ (32 * k + 0) = _
    rw [putDinode, short 0 (by omega)]
    rw [shortAt_setShort_of_ne _ _ (by omega), shortAt_setShort_of_ne _ _ (by omega),
      shortAt_setShort_of_ne _ _ (by omega)]
    exact shortAt_setShort_self _ _ _
  · show shortAt _ (32 * k + 1) = _
    rw [putDinode, short 1 (by omega), shortAt_setShort_of_ne _ _ (by omega),
      shortAt_setShort_of_ne _ _ (by omega), shortAt_setShort_self]
  · show shortAt _ (32 * k + 2) = _
    rw [putDinode, short 2 (by omega), shortAt_setShort_of_ne _ _ (by omega),
      shortAt_setShort_self]
  · show shortAt _ (32 * k + 3) = _
    rw [putDinode, short 3 (by omega), shortAt_setShort_self]
  · show uintAt _ (16 * k + 2) = _
    rw [putDinode, uintAt_setUints_outside _ _ (by omega), uintAt_setUint_self _ _ fits.size_lt]
  · show uintAt _ (16 * k + 3 + i.val) = _
    have value : (if h : i.val < NDIRECT + 2 then dip.addrs ⟨i.val, h⟩ else 0) = dip.addrs i :=
      dif_pos i.isLt
    rw [putDinode, uintAt_setUints_inside _ _ i.isLt (by rw [value]; exact fits.addrs_lt i), value]

theorem dinodeAt_putDinode_of_ne (data : Block) {k j : Nat} (dip : Dinode) (different : j ≠ k) :
    dinodeAt (putDinode data k dip) j = dinodeAt data j := by
  have short : ∀ i, i < 4 → shortAt (putDinode data k dip) (32 * j + i) =
      shortAt data (32 * j + i) := by
    intro i small
    rw [putDinode, shortAt_setUints _ _ (by unfold NDIRECT; omega), shortAt_setUint _ _ (by omega),
      shortAt_setShort_of_ne _ _ (by omega), shortAt_setShort_of_ne _ _ (by omega),
      shortAt_setShort_of_ne _ _ (by omega), shortAt_setShort_of_ne _ _ (by omega)]
  have uint : ∀ i, 2 ≤ i → i < 16 → uintAt (putDinode data k dip) (16 * j + i) =
      uintAt data (16 * j + i) := by
    intro i lower upper
    rw [putDinode, uintAt_setUints_outside _ _ (by unfold NDIRECT; omega),
      uintAt_setUint_of_ne _ _ (by omega), uintAt_setShort _ _ (by omega),
      uintAt_setShort _ _ (by omega), uintAt_setShort _ _ (by omega),
      uintAt_setShort _ _ (by omega)]
  ext i
  · exact short 0 (by omega)
  · exact short 1 (by omega)
  · exact short 2 (by omega)
  · exact short 3 (by omega)
  · exact uint 2 (by omega) (by omega)
  · have small : i.val < 13 := i.isLt
    have here := uint (3 + i.val) (by omega) (by omega)
    rwa [← Nat.add_assoc] at here

/-- Inode `inum` as the disk has it. -/
def dinode (sb : Superblock) (disk : Disk) (inum : Nat) : Dinode :=
  dinodeAt (disk (IBLOCK inum sb)) (inum % IPB)

/-- The disk with inode `inum` replaced. -/
def writeDinode (sb : Superblock) (disk : Disk) (inum : Nat) (dip : Dinode) : Disk :=
  logWrite disk (IBLOCK inum sb) (putDinode (disk (IBLOCK inum sb)) (inum % IPB) dip)

theorem dinode_fits (sb : Superblock) (disk : Disk) (inum : Nat) : (dinode sb disk inum).Fits :=
  dinodeAt_fits _ _

theorem dinode_writeDinode_self (sb : Superblock) (disk : Disk) (inum : Nat) {dip : Dinode}
    (fits : dip.Fits) : dinode sb (writeDinode sb disk inum dip) inum = dip := by
  rw [dinode, writeDinode, logWrite_self, dinodeAt_putDinode_self _ _ fits]

theorem dinode_writeDinode_of_ne (sb : Superblock) (disk : Disk) {inum other : Nat} (dip : Dinode)
    (different : other ≠ inum) :
    dinode sb (writeDinode sb disk inum dip) other = dinode sb disk other := by
  by_cases sameBlock : IBLOCK other sb = IBLOCK inum sb
  · have otherSlot : other % IPB ≠ inum % IPB := by
      unfold IBLOCK IPB BSIZE at *
      omega
    rw [dinode, writeDinode, sameBlock, logWrite_self, dinodeAt_putDinode_of_ne _ _ otherSlot,
      dinode, sameBlock]
  · rw [dinode, writeDinode, logWrite_of_ne _ _ sameBlock, dinode]

end Csc3150.FileSystem
