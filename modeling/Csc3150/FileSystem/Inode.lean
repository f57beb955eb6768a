/-
**Inode content: `bmap`, `itrunc`, `readi`, `writei`.**

The functions of `fs.c` that work on one locked in-memory inode `ip`. Each takes the disk and the
inode and returns both as it leaves them. The content of an inode is stored in blocks in three
ranges: `NDIRECT` blocks named in `ip->addrs[]`, `NINDIRECT` blocks named in the index block
`ip->addrs[NDIRECT]`, and `DNINDIRECT` blocks below the doubly-indirect block
`ip->addrs[NDIRECT + 1]`.

The functions are written for any way of reaching the buffers (`Buffers`), so that the log can be kept
beside the disk, and `bmapWith` and `readiWith` for any function in the place of `balloc`. `bmap`,
`itrunc`, `readi` and `writei` are these functions on the disk alone.

`either_copyin` and `either_copyout` belong to the process's memory: a source is the bytes behind
`src` together with the chunks at which the copy fails (`CopyIn`), a destination is the chunks at
which it fails (`CopyOut`).
-/

import Csc3150.FileSystem.Blocks
import Csc3150.Library.Outcome

namespace Csc3150.FileSystem

open ByteBuffer Outcome

/-- In-memory copy of an inode. -/
@[ext] structure Inode extends Dinode where
  /-- Device number. -/
  dev : Nat
  /-- Inode number. -/
  inum : Nat
  /-- Reference count. -/
  ref : Int
  /-- Is the sleep lock held? -/
  lock : Bool
  /-- Has the inode been read from disk? -/
  valid : Bool

/-! ### `bmap` -/

/-- What may stand in the place of `balloc`. -/
abbrev Allocator (σ : Type) := σ → Except Halt (σ × Nat)

/-- `balloc`, which never panics. -/
def Buffers.balloc {σ : Type} (buf : Buffers σ) (sb : Superblock) : Allocator σ :=
  fun s => .ok (ballocWith buf sb s)

section Walk

variable {σ : Type} (buf : Buffers σ) (alloc : Allocator σ)

/-- `ip->addrs[k]`, allocated when it is zero; 0 if out of disk space. -/
def inodeAddrWith (s : σ) (ip : Inode) (k : Fin (NDIRECT + 2)) : Except Halt (σ × Inode × Nat) :=
  let addr := ip.addrs k
  if addr = 0 then do
    let (s, addr) ← alloc s
    if addr = 0 then return (s, ip, 0)
    else return (s, { ip with addrs := Function.update ip.addrs k addr }, addr)
  else .ok (s, ip, addr)

/-- Entry `i` of the index block `bno`, allocated when it is zero; 0 if out of disk space. -/
def blockAddrWith (s : σ) (bno i : Nat) : Except Halt (σ × Nat) :=
  let addr := uintAt (buf.bread s bno) i
  if addr = 0 then do
    let (s, addr) ← alloc s
    if addr = 0 then return (s, 0)
    else return (buf.log_write s bno (setUint (buf.bread s bno) i addr), addr)
  else .ok (s, addr)

/-- The disk block address of the `bn`th block of inode `ip`, allocated if there is no such block;
0 if out of disk space. -/
def bmapWith (s : σ) (ip : Inode) (bn : Nat) : Except Halt (σ × Inode × Nat) :=
  if direct : bn < NDIRECT then inodeAddrWith alloc s ip ⟨bn, Nat.lt_add_right 2 direct⟩
  else
    let bn := bn - NDIRECT
    if bn < NINDIRECT then do
      let (s, ip, addr) ← inodeAddrWith alloc s ip ⟨NDIRECT, indirect_lt⟩
      if addr = 0 then return (s, ip, 0)
      else
        let (s, addr) ← blockAddrWith buf alloc s addr bn
        return (s, ip, addr)
    else
      let bn := bn - NINDIRECT
      if bn < DNINDIRECT then do
        let (s, ip, addr) ← inodeAddrWith alloc s ip ⟨NDIRECT + 1, doubly_lt⟩
        if addr = 0 then return (s, ip, 0)
        else
          let position := bn / NINDIRECT
          let offset := bn % NINDIRECT
          let (s, indirect_addr) ← blockAddrWith buf alloc s addr position
          if indirect_addr = 0 then return (s, ip, 0)
          else
            let (s, addr) ← blockAddrWith buf alloc s indirect_addr offset
            return (s, ip, addr)
      else .error .bmapOutOfRange

end Walk

/-! ### `itrunc` -/

section Buffers

variable {σ : Type} (buf : Buffers σ) (sb : Superblock)

/-- Copy a modified in-memory inode to disk. -/
def iupdateWith (s : σ) (ip : Inode) : σ :=
  buf.log_write s (IBLOCK ip.inum sb)
    (putDinode (buf.bread s (IBLOCK ip.inum sb)) (ip.inum % IPB) ip.toDinode)

/-- The loop over an index block: free every block it names. -/
def freeEntriesWith (s : σ) (a : Block) : Except Halt σ :=
  (List.range NINDIRECT).foldlM (fun s j => bfreeEntryWith buf sb s (uintAt a j)) s

/-- Free the indirect block `bno` and the blocks it names. -/
def freeSingleWith (s : σ) (bno : Nat) : Except Halt σ :=
  if bno ≠ 0 then do
    let s ← freeEntriesWith buf sb s (buf.bread s bno)
    bfreeWith buf sb s bno
  else .ok s

/-- The round of the doubly-indirect loop at entry `i` of the block `bno`: free the blocks the
indirect block names, free the indirect block, clear the entry. -/
def freeIndirectWith (bno : Nat) (s : σ) (i : Nat) : Except Halt σ :=
  let addr := uintAt (buf.bread s bno) i
  if addr ≠ 0 then do
    let s ← freeEntriesWith buf sb s (buf.bread s addr)
    let s ← bfreeWith buf sb s addr
    -- the cleared entry stays in the cached buffer; there is no `log_write`
    return buf.modify s bno (setUint (buf.bread s bno) i 0)
  else .ok s

/-- Free the doubly-indirect block `bno` and everything below it. -/
def freeDoubleWith (s : σ) (bno : Nat) : Except Halt σ :=
  if bno ≠ 0 then do
    let s ← (List.range NINDIRECT).foldlM (freeIndirectWith buf sb bno) s
    bfreeWith buf sb s bno
  else .ok s

/-- Truncate inode (discard contents). -/
def itruncWith (s : σ) (ip : Inode) : Except Halt (σ × Inode) := do
  let direct : Fin NDIRECT → Fin (NDIRECT + 2) := Fin.castLE direct_le
  let s ← (List.finRange NDIRECT).foldlM
    (fun s i => bfreeEntryWith buf sb s (ip.addrs (direct i))) s
  let s ← freeSingleWith buf sb s (ip.addrs ⟨NDIRECT, indirect_lt⟩)
  let s ← freeDoubleWith buf sb s (ip.addrs ⟨NDIRECT + 1, doubly_lt⟩)
  let ip := { ip with addrs := fun _ => 0, size := 0 }
  return (iupdateWith buf sb s ip, ip)

end Buffers

/-! ### `readi` and `writei` -/

/-- What `either_copyin` finds behind `src`: the byte at each offset, and for the chunk of `m` bytes
at offset `tot` whether the copy fails, after storing how many bytes. -/
structure CopyIn where
  byte : Nat → UInt8
  fault : (tot m : Nat) → Option Nat

/-- A source in kernel memory: the copy always succeeds. -/
def CopyIn.kernel (bytes : List UInt8) : CopyIn :=
  { byte := fun i => bytes[i]?.getD 0, fault := fun _ _ => none }

/-- `count` bytes of the source from offset `tot` on. -/
def CopyIn.bytes (src : CopyIn) (tot count : Nat) : List UInt8 := read src.byte tot count

/-- Does `either_copyout` fail for the chunk of `m` bytes at offset `tot`? -/
abbrev CopyOut := (tot m : Nat) → Bool

/-- The loop of `readi`, with the bytes copied out so far; `fuel` bounds the rounds. -/
def readiLoopWith (alloc : Allocator Disk) (dst : CopyOut) (n : Nat) :
    (fuel : Nat) → Disk → Inode → (off tot : Nat) → List UInt8 →
      Except Halt (Disk × Inode × Int × List UInt8)
  | 0, disk, ip, _, tot, copied => .ok (disk, ip, tot, copied)
  | fuel + 1, disk, ip, off, tot, copied =>
    if tot < n then do
      let (disk, ip, addr) ← bmapWith .disk alloc disk ip (off / BSIZE)
      if addr = 0 then return (disk, ip, (tot : Int), copied)
      else
        let m := min (n - tot) (BSIZE - off % BSIZE)
        if dst tot m then return (disk, ip, -1, copied)
        else
          let copied := copied ++ read (disk addr) (off % BSIZE) m
          readiLoopWith alloc dst n fuel disk ip (off + m) (tot + m) copied
    else .ok (disk, ip, tot, copied)

/-- Read data from inode: the result and the bytes copied out. -/
def readiWith (alloc : Allocator Disk) (disk : Disk) (ip : Inode) (dst : CopyOut) (off n : UInt32) :
    Except Halt (Disk × Inode × Int × List UInt8) :=
  if ip.size < off.toNat ∨ off + n < off then .ok (disk, ip, 0, [])
  else
    let n := if ip.size < (off + n).toNat then ip.size - off.toNat else n.toNat
    readiLoopWith alloc dst n n disk ip off.toNat 0 []

section Buffers

variable {σ : Type} (buf : Buffers σ) (sb : Superblock)

/-- The loop of `writei`: the final `off` and `tot`; `fuel` bounds the rounds. -/
def writeiLoopWith (src : CopyIn) (n : Nat) :
    (fuel : Nat) → σ → Inode → (off tot : Nat) → Except Halt (σ × Inode × Nat × Nat)
  | 0, s, ip, off, tot => .ok (s, ip, off, tot)
  | fuel + 1, s, ip, off, tot =>
    if tot < n then do
      let (s, ip, addr) ← bmapWith buf (buf.balloc sb) s ip (off / BSIZE)
      if addr = 0 then return (s, ip, off, tot)
      else
        let m := min (n - tot) (BSIZE - off % BSIZE)
        match src.fault tot m with
        | some stored =>
          -- the bytes copied before the fault are in the cached buffer; there is no `log_write`
          let data := write (buf.bread s addr) (off % BSIZE) (src.bytes tot (min stored m))
          return (buf.modify s addr data, ip, off, tot)
        | none =>
          let data := write (buf.bread s addr) (off % BSIZE) (src.bytes tot m)
          writeiLoopWith src n fuel (buf.log_write s addr data) ip (off + m) (tot + m)
    else .ok (s, ip, off, tot)

/-- Write data to inode: the number of bytes successfully written, or -1. -/
def writeiWith (s : σ) (ip : Inode) (src : CopyIn) (off n : UInt32) : Except Halt (σ × Inode × Int) :=
  if ip.size < off.toNat ∨ off + n < off then .ok (s, ip, -1)
  else if MAXFILE * BSIZE < (off + n).toNat then .ok (s, ip, -1)
  else do
    let (s, ip, off, tot) ← writeiLoopWith buf sb src n.toNat n.toNat s ip off.toNat 0
    let ip := if ip.size < off then { ip with size := off } else ip
    -- write the i-node back to disk even if the size didn't change
    return (iupdateWith buf sb s ip, ip, (tot : Int))

end Buffers

/-! ### On the disk alone -/

section Disk

variable (sb : Superblock) (disk : Disk)

def bmap : Disk → Inode → Nat → Except Halt (Disk × Inode × Nat) := bmapWith .disk (Buffers.disk.balloc sb)

def iupdate (ip : Inode) : Disk := iupdateWith .disk sb disk ip

def freeEntries (a : Block) : Except Halt Disk := freeEntriesWith .disk sb disk a

def freeSingle (bno : Nat) : Except Halt Disk := freeSingleWith .disk sb disk bno

def freeIndirect (bno : Nat) (disk : Disk) (i : Nat) : Except Halt Disk :=
  freeIndirectWith .disk sb bno disk i

def freeDouble (bno : Nat) : Except Halt Disk := freeDoubleWith .disk sb disk bno

def itrunc (ip : Inode) : Except Halt (Disk × Inode) := itruncWith .disk sb disk ip

def readiLoop := readiLoopWith (Buffers.disk.balloc sb)

def readi : Disk → Inode → CopyOut → (off n : UInt32) → Except Halt (Disk × Inode × Int × List UInt8) :=
  readiWith (Buffers.disk.balloc sb)

def writeiLoop := writeiLoopWith .disk sb

def writei : Disk → Inode → CopyIn → (off n : UInt32) → Except Halt (Disk × Inode × Int) :=
  writeiWith .disk sb

theorem iupdate_eq (ip : Inode) : iupdate sb disk ip = writeDinode sb disk ip.inum ip.toDinode := rfl

end Disk

/-! ### The walk, case by case -/

theorem disk_balloc {sb : Superblock} {disk : Disk} {result : Disk × Nat} (run : balloc sb disk = result) :
    Buffers.disk.balloc sb disk = .ok result :=
  congrArg Except.ok run

section Cases

variable {σ : Type} {buf : Buffers σ} {alloc : Allocator σ} {s s₁ : σ} {ip ip' : Inode}
  {k : Fin (NDIRECT + 2)} {bno i j b up addr : Nat}

theorem inodeAddrWith_present (alloc : Allocator σ) (s : σ) (present : ip.addrs k ≠ 0) :
    inodeAddrWith alloc s ip k = .ok (s, ip, ip.addrs k) :=
  if_neg present

theorem inodeAddrWith_full (zero : ip.addrs k = 0) (run : alloc s = .ok (s₁, 0)) :
    inodeAddrWith alloc s ip k = .ok (s₁, ip, 0) :=
  (if_pos zero).trans (bind_of_ok run)

theorem inodeAddrWith_fresh (zero : ip.addrs k = 0) (run : alloc s = .ok (s₁, b)) (nonzero : b ≠ 0) :
    inodeAddrWith alloc s ip k = .ok (s₁, { ip with addrs := Function.update ip.addrs k b }, b) :=
  (if_pos zero).trans ((bind_of_ok run).trans (if_neg nonzero))

theorem blockAddrWith_present (alloc : Allocator σ) (present : uintAt (buf.bread s bno) i ≠ 0) :
    blockAddrWith buf alloc s bno i = .ok (s, uintAt (buf.bread s bno) i) :=
  if_neg present

theorem blockAddrWith_full (zero : uintAt (buf.bread s bno) i = 0) (run : alloc s = .ok (s₁, 0)) :
    blockAddrWith buf alloc s bno i = .ok (s₁, 0) :=
  (if_pos zero).trans (bind_of_ok run)

theorem blockAddrWith_fresh (zero : uintAt (buf.bread s bno) i = 0) (run : alloc s = .ok (s₁, b))
    (nonzero : b ≠ 0) : blockAddrWith buf alloc s bno i =
      .ok (buf.log_write s₁ bno (setUint (buf.bread s₁ bno) i b), b) :=
  (if_pos zero).trans ((bind_of_ok run).trans (if_neg nonzero))

theorem bmapWith_direct {bn : Nat} (direct : bn < NDIRECT) :
    bmapWith buf alloc s ip bn = inodeAddrWith alloc s ip ⟨bn, Nat.lt_add_right 2 direct⟩ :=
  dif_pos direct

/-- The block of the indirect range, below the root block. -/
theorem bmapWith_single (single : j < NINDIRECT)
    (root : inodeAddrWith alloc s ip ⟨NDIRECT, indirect_lt⟩ = .ok (s₁, ip', up)) :
    bmapWith buf alloc s ip (NDIRECT + j) =
      if up = 0 then .ok (s₁, ip', 0)
      else blockAddrWith buf alloc s₁ up j >>= fun entry => .ok (entry.1, ip', entry.2) := by
  have shift : NDIRECT + j - NDIRECT = j := Nat.add_sub_cancel_left _ _
  have notDirect : ¬ NDIRECT + j < NDIRECT := by omega
  rw [bmapWith, dif_neg notDirect, shift]
  exact (if_pos single).trans (bind_of_ok root)

/-- The block of the doubly-indirect range, below the root block. -/
theorem bmapWith_double (double : j < DNINDIRECT)
    (root : inodeAddrWith alloc s ip ⟨NDIRECT + 1, doubly_lt⟩ = .ok (s₁, ip', up)) :
    bmapWith buf alloc s ip (NDIRECT + (NINDIRECT + j)) =
      if up = 0 then .ok (s₁, ip', 0)
      else blockAddrWith buf alloc s₁ up (j / NINDIRECT) >>= fun index =>
        if index.2 = 0 then .ok (index.1, ip', 0)
        else blockAddrWith buf alloc index.1 index.2 (j % NINDIRECT) >>= fun entry =>
          .ok (entry.1, ip', entry.2) := by
  have shift : NDIRECT + (NINDIRECT + j) - NDIRECT = NINDIRECT + j := Nat.add_sub_cancel_left _ _
  have shift' : NINDIRECT + j - NINDIRECT = j := Nat.add_sub_cancel_left _ _
  have notDirect : ¬ NDIRECT + (NINDIRECT + j) < NDIRECT := by omega
  have notSingle : ¬ NINDIRECT + j < NINDIRECT := by omega
  rw [bmapWith, dif_neg notDirect, shift]
  refine (if_neg notSingle).trans ?_
  rw [shift']
  exact (if_pos double).trans (bind_of_ok root)

theorem bmapWith_out_of_range (buf : Buffers σ) (alloc : Allocator σ) (s : σ) (ip : Inode) {bn : Nat}
    (large : MAXFILE ≤ bn) : bmapWith buf alloc s ip bn = .error .bmapOutOfRange := by
  have total : MAXFILE = NDIRECT + NINDIRECT + DNINDIRECT := rfl
  rw [bmapWith, dif_neg (by omega)]
  exact (if_neg (by omega)).trans (if_neg (by omega))

end Cases

/-! ### The loops, round by round -/

section Rounds

variable {σ : Type} {buf : Buffers σ} {sb : Superblock} {alloc : Allocator Disk} {s s₁ : σ}
  {disk middle : Disk} {ip ip' : Inode} {src : CopyIn} {dst : CopyOut} {n fuel off tot addr m : Nat}
  {copied : List UInt8}

theorem writeiLoopWith_done (fuel : Nat) (done : ¬ tot < n) :
    writeiLoopWith buf sb src n fuel s ip off tot = .ok (s, ip, off, tot) := by
  cases fuel with
  | zero => rfl
  | succ fuel => exact if_neg done

theorem writeiLoopWith_stop (more : tot < n)
    (run : bmapWith buf (buf.balloc sb) s ip (off / BSIZE) = .ok (s₁, ip', 0)) :
    writeiLoopWith buf sb src n (fuel + 1) s ip off tot = .ok (s₁, ip', off, tot) :=
  (if_pos more).trans (bind_of_ok run)

theorem writeiLoopWith_fault {stored : Nat} (more : tot < n)
    (run : bmapWith buf (buf.balloc sb) s ip (off / BSIZE) = .ok (s₁, ip', addr)) (nonzero : addr ≠ 0)
    (amount : min (n - tot) (BSIZE - off % BSIZE) = m) (fault : src.fault tot m = some stored) :
    writeiLoopWith buf sb src n (fuel + 1) s ip off tot =
      .ok (buf.modify s₁ addr
        (write (buf.bread s₁ addr) (off % BSIZE) (src.bytes tot (min stored m))), ip', off, tot) := by
  subst amount
  refine (if_pos more).trans ((bind_of_ok run).trans ((if_neg nonzero).trans ?_))
  dsimp only
  rw [fault]
  rfl

theorem writeiLoopWith_chunk (more : tot < n)
    (run : bmapWith buf (buf.balloc sb) s ip (off / BSIZE) = .ok (s₁, ip', addr)) (nonzero : addr ≠ 0)
    (amount : min (n - tot) (BSIZE - off % BSIZE) = m) (copies : src.fault tot m = none) :
    writeiLoopWith buf sb src n (fuel + 1) s ip off tot =
      writeiLoopWith buf sb src n fuel
        (buf.log_write s₁ addr (write (buf.bread s₁ addr) (off % BSIZE) (src.bytes tot m))) ip' (off + m)
        (tot + m) := by
  subst amount
  refine (if_pos more).trans ((bind_of_ok run).trans ((if_neg nonzero).trans ?_))
  dsimp only
  rw [copies]

theorem readiLoopWith_done (fuel : Nat) (done : ¬ tot < n) :
    readiLoopWith alloc dst n fuel disk ip off tot copied = .ok (disk, ip, (tot : Int), copied) := by
  cases fuel with
  | zero => rfl
  | succ fuel => exact if_neg done

theorem readiLoopWith_error {halt : Halt} (more : tot < n)
    (run : bmapWith .disk alloc disk ip (off / BSIZE) = .error halt) :
    readiLoopWith alloc dst n (fuel + 1) disk ip off tot copied = .error halt :=
  (if_pos more).trans (bind_of_error run)

theorem readiLoopWith_fault (more : tot < n)
    (run : bmapWith .disk alloc disk ip (off / BSIZE) = .ok (middle, ip', addr)) (nonzero : addr ≠ 0)
    (amount : min (n - tot) (BSIZE - off % BSIZE) = m) (fails : dst tot m = true) :
    readiLoopWith alloc dst n (fuel + 1) disk ip off tot copied = .ok (middle, ip', -1, copied) := by
  subst amount
  exact (if_pos more).trans ((bind_of_ok run).trans ((if_neg nonzero).trans (if_pos fails)))

theorem readiLoopWith_chunk (more : tot < n)
    (run : bmapWith .disk alloc disk ip (off / BSIZE) = .ok (middle, ip', addr)) (nonzero : addr ≠ 0)
    (amount : min (n - tot) (BSIZE - off % BSIZE) = m) (copies : ¬ dst tot m = true) :
    readiLoopWith alloc dst n (fuel + 1) disk ip off tot copied =
      readiLoopWith alloc dst n fuel middle ip' (off + m) (tot + m)
        (copied ++ read (middle addr) (off % BSIZE) m) := by
  subst amount
  exact (if_pos more).trans ((bind_of_ok run).trans ((if_neg nonzero).trans (if_neg copies)))

end Rounds

section Reads

variable {sb : Superblock} {disk : Disk} {ip : Inode} {dst : CopyOut} {off n : UInt32}

theorem readi_beyond (beyond : ip.size < off.toNat ∨ off + n < off) :
    readi sb disk ip dst off n = .ok (disk, ip, 0, []) :=
  if_pos beyond

theorem readi_inside {count : Nat} (inside : ¬ (ip.size < off.toNat ∨ off + n < off))
    (clipped : (if ip.size < (off + n).toNat then ip.size - off.toNat else n.toNat) = count) :
    readi sb disk ip dst off n = readiLoop sb dst count count disk ip off.toNat 0 [] := by
  subst clipped
  exact if_neg inside

end Reads

end Csc3150.FileSystem
