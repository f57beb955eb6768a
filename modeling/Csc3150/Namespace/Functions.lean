/-
**Directories and paths: `dirlookup`, `dirlink`, `namex`.**

The functions of `fs.c` on directories and paths, as scripts over the disk and the inode table. The
atomic programs of a script are what one process does without releasing the lock it needs for it: one
section under `itable.lock`, one call on an inode that is locked, one block of inodes in the buffer
cache. `iput` and `ialloc` are several such programs here; performed at once they are the programs of
the inode layer (`run_iput`, `run_ialloc`).

`myproc()->cwd` is the argument `cwd`, and a local buffer that is not initialised is an argument, too.
-/

import Csc3150.FileSystem.InodeCalls
import Csc3150.Library.Script
import Csc3150.Namespace.Entries

namespace Csc3150.Namespace

open ByteBuffer FileSystem Outcome Program Search
open Program.Script (atomic)

/-- A path through the file system, interrupted between its atomic programs. -/
abbrev FsScript (α : Type) := Script Halt Fs α

/-- `panic`. -/
def panic {σ α : Type} (halt : Halt) : Script Halt σ α := atomic fun _ => .error halt

/-- Read the fields of an in-memory inode. -/
def inode (i : Ip) : FsProg Inode := fun fs => .ok (fs.inode i, fs)

/-- Assign to fields of an in-memory inode. -/
def assign (i : Ip) (change : Dinode → Dinode) : FsProg Unit := fun fs =>
  .ok ((), fs.setInode i { fs.inode i with toDinode := change (fs.inode i).toDinode })

section Functions

variable (sb : Superblock)

/-! ### `iput` and `ialloc` -/

/-- The first section of `iput`: is the inode to be freed? Then its lock is taken. -/
def iputTest (i : Ip) : FsProg Bool := fun fs =>
  let ip := fs.inode i
  if ip.ref = 1 ∧ ip.valid ∧ ip.nlink = 0 then
    if ip.lock then .error .asleep else .ok (true, fs.setInode i { ip with lock := true })
  else .ok (false, fs)

/-- The entry of a freed inode is not valid any more, and its lock is released. -/
def iputDone (i : Ip) : FsProg Unit := fun fs =>
  .ok ((), fs.setInode i { fs.inode i with valid := false, lock := false })

/-- The last section of `iput`. -/
def iputDrop (i : Ip) : FsProg Unit := fun fs =>
  .ok ((), fs.setInode i { fs.inode i with ref := (fs.inode i).ref - 1 })

/-- Drop a reference; free the inode and its content when it was the last one and no link is left. -/
def iput (i : Ip) : FsScript Unit := do
  let last ← atomic (iputTest i)
  if last then
    atomic (Fs.itrunc sb i)
    atomic (assign i fun ip => { ip with type := 0 })
    atomic (Fs.iupdate sb i)
    atomic (iputDone i)
  atomic (iputDrop i)

/-- Common idiom: unlock, then put. -/
def iunlockput (i : Ip) : FsScript Unit := do
  atomic (iunlock i)
  iput sb i

/-- One round of `ialloc`: claim the inode `inum` if it is free. -/
def claim (inum : Nat) (type : Int16) : FsProg Bool := fun fs =>
  if (dinode sb fs.disk inum).type = 0 then
    .ok (true, { fs with disk := writeDinode sb fs.disk inum { Dinode.zero with type := type } })
  else .ok (false, fs)

/-- The loop of `ialloc`: `count` inodes from `inum` on. -/
def iallocFrom (dev : Nat) (type : Int16) : (count inum : Nat) → FsScript (Option Ip)
  | 0, _ => return none
  | count + 1, inum => do
    if ← atomic (claim sb inum type) then
      let ip ← atomic (iget dev inum)
      return some ip
    else iallocFrom dev type count (inum + 1)

/-- Allocate an inode on device `dev`: mark it allocated by giving it type `type`. -/
def ialloc (dev : Nat) (type : Int16) : FsScript (Option Ip) :=
  iallocFrom sb dev type (sb.ninodes - 1) 1

/-! ### Directories -/

/-- The values of `off` in `for(off = start; off < size; off += sizeof(de))`. -/
def offsets (start size : Nat) : List Nat :=
  (List.range ((size - start + (direntSize - 1)) / direntSize)).map fun k => start + direntSize * k

/-- Read the directory entry at `off`, or panic. -/
def readDirent (dp : Ip) (halt : Halt) (off : Nat) : FsScript Dirent := do
  let (r, bytes) ← atomic (Fs.readi sb dp (fun _ _ => false) (UInt32.ofNat off) 16)
  if r ≠ direntSize then panic halt else return .ofBytes bytes

/-- The loop of `dirlookup`. -/
def dirlookupFrom (dp : Ip) (dev : Nat) (name : Name) : List Nat → FsScript (Option (Ip × Nat))
  | [] => return none
  | off :: rest => do
    let de ← readDirent sb dp .dirlookupRead off
    if de.inum = 0 then dirlookupFrom dp dev name rest
    else if namecmp name de.name = 0 then
      -- entry matches path element
      let ip ← atomic (iget dev de.inum)
      return some (ip, off)
    else dirlookupFrom dp dev name rest

/-- Look for a directory entry in a directory; its inode and the byte offset of the entry. -/
def dirlookup (dp : Ip) (name : Name) : FsScript (Option (Ip × Nat)) := do
  let d ← atomic (inode dp)
  if d.type ≠ T_DIR then panic .dirlookupNotDir
  else dirlookupFrom sb dp d.dev name (offsets 0 d.size)

/-- The second loop of `dirlink`: the offset of an empty entry, or where the loop ends. -/
def emptyFrom (dp : Ip) (last : Nat) : List Nat → FsScript Nat
  | [] => return last
  | off :: rest => do
    let de ← readDirent sb dp .dirlinkRead off
    if de.inum = 0 then return off else emptyFrom dp (off + direntSize) rest

/-- Write a new directory entry (`name`, `inum`) into the directory `dp`; -1 on failure. -/
def dirlink (dp : Ip) (name : Name) (inum : Nat) : FsScript Int := do
  match ← dirlookup sb dp name with
  | some (ip, _) =>
    iput sb ip
    return -1
  | none =>
    let d ← atomic (inode dp)
    let off ← emptyFrom sb dp 0 (offsets 0 d.size)
    -- `strncpy` sets every byte of `de.name`, whatever the last entry read was
    let de : Dirent := { inum := inum, name := strncpy (fun _ => 0) name DIRSIZ }
    let r ← atomic (Fs.writei sb dp (.kernel de.toBytes) (UInt32.ofNat off) 16)
    if r ≠ direntSize then return -1 else return 0

/-! ### Paths -/

/-- The end of `namex`, when no path element is left. -/
def namexEnd (nameiparent : Bool) (ip : Ip) (name : Name) : FsScript (Option Ip × Name) :=
  if nameiparent then do
    iput sb ip
    return (none, name)
  else return (some ip, name)

/-- The loop of `namex`; every round takes at least one byte off `path`. -/
def namexFrom (nameiparent : Bool) :
    (fuel : Nat) → (path : List UInt8) → Ip → Name → FsScript (Option Ip × Name)
  | 0, _, ip, name => namexEnd sb nameiparent ip name
  | fuel + 1, path, ip, name =>
    match skipelem path name with
    | none => namexEnd sb nameiparent ip name
    | some (path, name) => do
      atomic (ilock sb ip)
      let d ← atomic (inode ip)
      if d.type ≠ T_DIR then
        iunlockput sb ip
        return (none, name)
      else if nameiparent ∧ path.headD 0 = 0 then
        -- stop one level early
        atomic (iunlock ip)
        return (some ip, name)
      else
        match ← dirlookup sb ip name with
        | none =>
          iunlockput sb ip
          return (none, name)
        | some (next, _) =>
          iunlockput sb ip
          namexFrom nameiparent fuel path next name

/-- Look up the inode for a path name, or that of its parent; and what `name` holds afterwards. -/
def namex (cwd : Ip) (path : List UInt8) (nameiparent : Bool) (name : Name) :
    FsScript (Option Ip × Name) := do
  let ip ← if path.headD 0 = slash then atomic (iget ROOTDEV ROOTINO) else atomic (idup cwd)
  namexFrom sb nameiparent path.length path ip name

def namei (cwd : Ip) (path : List UInt8) (name : Name) : FsScript (Option Ip) := do
  let (ip, _) ← namex sb cwd path false name
  return ip

def nameiparent (cwd : Ip) (path : List UInt8) (name : Name) : FsScript (Option Ip × Name) :=
  namex sb cwd path true name

end Functions

/-! ### `iput` and `ialloc` at once -/

section AtOnce

variable {sb : Superblock}

theorem run_iput (i : Ip) : (iput sb i).run = FileSystem.iput sb i := by
  funext fs
  rw [iput, Script.run_bind, Script.run_atomic, bind_apply, FileSystem.iput]
  dsimp only
  by_cases last : (fs.inode i).ref = 1 ∧ (fs.inode i).valid = true ∧ (fs.inode i).nlink = 0
  · rw [if_pos last]
    by_cases locked : (fs.inode i).lock = true
    · rw [if_pos locked, bind_of_error]
      rw [iputTest, if_pos last, if_pos locked]
    · rw [if_neg locked, bind_of_ok (a := (true, fs.setInode i { fs.inode i with lock := true }))]
      · simp only [if_true, Script.run_bind, Script.run_atomic]
        rw [bind_apply, Fs.itrunc]
        simp only [Fs.setInode_self, Fs.setInode_disk]
        cases FileSystem.itrunc sb fs.disk { fs.inode i with lock := true } with
        | error error => rfl
        | ok result =>
          show Except.ok ((), _) = Except.ok ((), _)
          simp only [Fs.setInode, Fs.put, Function.update_idem, Function.update_self]
      · rw [iputTest, if_pos last, if_neg locked]
  · rw [if_neg last, bind_of_ok (a := (false, fs))]
    · simp only [Bool.false_eq_true, if_false, Script.run_atomic]
      rfl
    · rw [iputTest, if_neg last]

theorem run_iunlockput (i : Ip) : (iunlockput sb i).run = FileSystem.iunlockput sb i := by
  rw [iunlockput, Script.run_bind, Script.run_atomic]
  simp only [run_iput]
  rfl

theorem run_iallocFrom (dev : Nat) (type : Int16) (count inum : Nat) (fs : Fs) :
    (iallocFrom sb dev type count inum).run fs =
      match search (fun inum => if (dinode sb fs.disk inum).type = 0 then some inum else none)
        count inum with
      | some inum => do
        let disk := writeDinode sb fs.disk inum { Dinode.zero with type := type }
        let (ip, fs) ← iget dev inum { fs with disk := disk }
        return (some ip, fs)
      | none => .ok (none, fs) := by
  induction count generalizing inum with
  | zero => rfl
  | succ count ih =>
    rw [iallocFrom, Script.run_bind, Script.run_atomic, bind_apply, search]
    by_cases free : (dinode sb fs.disk inum).type = 0
    · rw [if_pos free, claim, if_pos free]
      show (Script.run _ _ = _)
      simp only [if_true, Script.run_bind, Script.run_atomic]
      rfl
    · rw [if_neg free, claim, if_neg free]
      exact ih (inum + 1)

theorem run_ialloc (dev : Nat) (type : Int16) :
    (ialloc sb dev type).run = FileSystem.ialloc sb dev type := by
  funext fs
  rw [ialloc, run_iallocFrom]
  rfl

end AtOnce

end Csc3150.Namespace
