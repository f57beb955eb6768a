/-
**The file system calls of `sysfile.c`.**

The kernel is the disk with the inode table, the table of open files, the processes with their current
directories and descriptors, and a record of the calls of `begin_op` and `end_op`. The system calls are
scripts over it, each with the process that makes it; a path argument is `none` when `argstr` fails.

`file.c` and `fork` and `exit` of `proc.c` are the ones of xv6. A pipe has no inode, and `pipe.c` touches
nothing that is modelled here. `O_NOFOLLOW` is a constant of a header that is not part of the sources.
-/

import Csc3150.Namespace.Functions

namespace Csc3150.Namespace

open ByteBuffer FileSystem Outcome Program Search
open Program.Script (atomic)

/-- Maximum number of processes. -/
def NPROC : Nat := 64
/-- Open files per process. -/
def NOFILE : Nat := 16
/-- Open files per system. -/
def NFILE : Nat := 100
/-- Maximum major device number. -/
def NDEV : Nat := 10
/-- Maximum file path name. -/
def MAXPATH : Nat := 128

/-- The flags of `fcntl.h`. -/
def O_RDONLY : UInt32 := 0x000
def O_WRONLY : UInt32 := 0x001
def O_RDWR : UInt32 := 0x002
def O_CREATE : UInt32 := 0x200
def O_TRUNC : UInt32 := 0x400

abbrev Pid := Fin NPROC
abbrev FileIx := Fin NFILE
abbrev Fd := Fin NOFILE

inductive FileType where
  | none
  | pipe
  | inode
  | device
  deriving DecidableEq

/-- An open file. -/
structure File where
  type : FileType
  /-- Reference count. -/
  ref : Int
  readable : Bool
  writable : Bool
  /-- The inode of a file of type `inode` or `device`. -/
  ip : Ip
  off : UInt32
  major : Int16

/-- Does the file refer to an inode? -/
def FileType.hasInode (type : FileType) : Bool := type = .inode ∨ type = .device

/-- A process. -/
structure Proc where
  used : Bool
  /-- Current directory. -/
  cwd : Ip
  /-- Open files. -/
  ofile : Fd → Option FileIx

/-- The calls of the log. -/
inductive LogCall where
  | begin_op
  | end_op
  deriving DecidableEq

structure Kernel where
  fs : Fs
  file : FileIx → File
  proc : Pid → Proc
  /-- The calls of `begin_op` and `end_op` so far. -/
  ops : List LogCall

/-- What the local buffers of a call hold before they are set: `name`, and memory from `target` on. -/
structure Locals where
  name : Name
  target : List UInt8

/-- A system call, interrupted between its atomic programs. -/
abbrev Sys (α : Type) := Script Halt Kernel α

/-- A script of the file system. -/
def onFs {α : Type} (x : FsScript α) : Sys α := x.zoom Kernel.fs fun fs k => { k with fs := fs }

/-- An atomic program of the file system. -/
def onFs₁ {α : Type} (x : FsProg α) : Sys α := onFs (atomic x)

def setFile (k : Kernel) (f : FileIx) (file : File) : Kernel :=
  { k with file := Function.update k.file f file }

def setProc (k : Kernel) (p : Pid) (proc : Proc) : Kernel :=
  { k with proc := Function.update k.proc p proc }

def begin_op : Sys Unit := atomic fun k => .ok ((), { k with ops := k.ops ++ [.begin_op] })

def end_op : Sys Unit := atomic fun k => .ok ((), { k with ops := k.ops ++ [.end_op] })

/-- `myproc()->cwd`. -/
def myCwd (p : Pid) : Sys Ip := atomic fun k => .ok ((k.proc p).cwd, k)

def setCwd (p : Pid) (ip : Ip) : Sys Unit :=
  atomic fun k => .ok ((), setProc k p { k.proc p with cwd := ip })

/-- `myproc()->ofile[fd]`. -/
def getFd (p : Pid) (fd : Fd) : Sys (Option FileIx) := atomic fun k => .ok ((k.proc p).ofile fd, k)

def setFd (p : Pid) (fd : Fd) (f : Option FileIx) : Sys Unit := atomic fun k =>
  .ok ((), setProc k p { k.proc p with ofile := Function.update (k.proc p).ofile fd f })

def getFile (f : FileIx) : Sys File := atomic fun k => .ok (k.file f, k)

def putFile (f : FileIx) (change : File → File) : Sys Unit :=
  atomic fun k => .ok ((), setFile k f (change (k.file f)))

/-! ### `file.c` -/

/-- Allocate a file structure. -/
def filealloc : Sys (Option FileIx) := atomic fun k =>
  match searchFin fun f => if (k.file f).ref = 0 then some f else none with
  | some f => .ok (some f, setFile k f { k.file f with ref := 1 })
  | none => .ok (none, k)

/-- Increment ref count for file `f`. -/
def filedup (f : FileIx) : Sys Unit := atomic fun k =>
  if (k.file f).ref < 1 then .error .filedup
  else .ok ((), setFile k f { k.file f with ref := (k.file f).ref + 1 })

/-- The section of `fileclose`: the file, when this was its last reference. -/
def fileDrop (f : FileIx) : Sys (Option File) := atomic fun k =>
  let ff := k.file f
  if ff.ref < 1 then .error .fileclose
  else if 0 < ff.ref - 1 then .ok (none, setFile k f { ff with ref := ff.ref - 1 })
  else .ok (some ff, setFile k f { ff with ref := 0, type := .none })

section Calls

variable (sb : Superblock)

/-- Close file `f`: decrement ref count, close when it reaches 0. -/
def fileclose (f : FileIx) : Sys Unit := do
  match ← fileDrop f with
  | none => return
  | some ff =>
    if ff.type.hasInode then
      begin_op
      onFs (iput sb ff.ip)
      end_op
    else return

/-- Read from file `f`; `dst` is the user memory. -/
def fileread (f : FileIx) (dst : CopyOut) (n : Nat) : Sys Int := do
  let file ← getFile f
  if file.readable = false then return -1
  else match file.type with
    | .none => panic .fileread
    | .pipe | .device => return -1
    | .inode =>
      onFs₁ (ilock sb file.ip)
      let (r, _) ← onFs₁ (Fs.readi sb file.ip dst file.off (UInt32.ofNat n))
      putFile f fun file => if 0 < r then { file with off := file.off + UInt32.ofNat r.toNat } else file
      onFs₁ (iunlock file.ip)
      return r

/-- The user memory from byte `i` on. -/
def from_ (src : CopyIn) (i : Nat) : CopyIn where
  byte k := src.byte (i + k)
  fault tot m := src.fault (i + tot) m

/-- Bytes written in one transaction. -/
def maxWrite : Nat := 3 * BSIZE

/-- The loop of `filewrite`, with `i` bytes written; `fuel` bounds the rounds. -/
def filewriteFrom (f : FileIx) (ip : Ip) (src : CopyIn) (n : Nat) : (fuel i : Nat) → Sys Int
  | 0, i => return if i = n then (n : Int) else -1
  | fuel + 1, i =>
    if i < n then do
      let n1 := min (n - i) maxWrite
      begin_op
      onFs₁ (ilock sb ip)
      let file ← getFile f
      let r ← onFs₁ (Fs.writei sb ip (from_ src i) file.off (UInt32.ofNat n1))
      putFile f fun file => if 0 < r then { file with off := file.off + UInt32.ofNat r.toNat } else file
      onFs₁ (iunlock ip)
      end_op
      if r ≠ n1 then return -1 else filewriteFrom f ip src n fuel (i + n1)
    else return if i = n then (n : Int) else -1

/-- Write to file `f`; `src` is the user memory. -/
def filewrite (f : FileIx) (src : CopyIn) (n : Nat) : Sys Int := do
  let file ← getFile f
  if file.writable = false then return -1
  else match file.type with
    | .none => panic .filewrite
    | .pipe | .device => return -1
    | .inode => filewriteFrom sb f file.ip src n n 0

/-! ### `sysfile.c` -/

/-- Allocate a file descriptor for the given file. -/
def fdalloc (p : Pid) (f : FileIx) : Sys (Option Fd) := atomic fun k =>
  match searchFin fun fd => if (k.proc p).ofile fd = none then some fd else none with
  | some fd => .ok (some fd, setProc k p
      { k.proc p with ofile := Function.update (k.proc p).ofile fd (some f) })
  | none => .ok (none, k)

def sys_dup (p : Pid) (fd : Fd) : Sys Int := do
  match ← getFd p fd with
  | none => return -1
  | some f =>
    match ← fdalloc p f with
    | none => return -1
    | some fd =>
      filedup f
      return fd.val

def sys_read (p : Pid) (fd : Fd) (dst : CopyOut) (n : Nat) : Sys Int := do
  match ← getFd p fd with
  | none => return -1
  | some f => fileread sb f dst n

def sys_write (p : Pid) (fd : Fd) (src : CopyIn) (n : Nat) : Sys Int := do
  match ← getFd p fd with
  | none => return -1
  | some f => filewrite sb f src n

def sys_close (p : Pid) (fd : Fd) : Sys Int := do
  match ← getFd p fd with
  | none => return -1
  | some f =>
    setFd p fd none
    fileclose sb f
    return 0

/-- The label `bad` of `sys_link`. -/
def linkBad (ip : Ip) : Sys Int := do
  onFs₁ (ilock sb ip)
  onFs₁ (assign ip fun d => { d with nlink := d.nlink - 1 })
  onFs₁ (Fs.iupdate sb ip)
  onFs (iunlockput sb ip)
  end_op
  return -1

/-- Create the path `new` as a link to the same inode as `old`. -/
def sys_link (p : Pid) (locals : Locals) : (old new : Option (List UInt8)) → Sys Int
  | some old, some new => do
    begin_op
    let cwd ← myCwd p
    match ← onFs (namei sb cwd old locals.name) with
    | none =>
      end_op
      return -1
    | some ip =>
      onFs₁ (ilock sb ip)
      let d ← onFs₁ (inode ip)
      if d.type = T_DIR then
        onFs (iunlockput sb ip)
        end_op
        return -1
      else
        onFs₁ (assign ip fun d => { d with nlink := d.nlink + 1 })
        onFs₁ (Fs.iupdate sb ip)
        onFs₁ (iunlock ip)
        match ← onFs (nameiparent sb cwd new locals.name) with
        | (none, _) => linkBad sb ip
        | (some dp, name) =>
          onFs₁ (ilock sb dp)
          let d ← onFs₁ (inode dp)
          let i ← onFs₁ (inode ip)
          if d.dev ≠ i.dev then
            onFs (iunlockput sb dp)
            linkBad sb ip
          else
            let r ← onFs (dirlink sb dp name i.inum)
            if r < 0 then
              onFs (iunlockput sb dp)
              linkBad sb ip
            else
              onFs (iunlockput sb dp)
              onFs (iput sb ip)
              end_op
              return 0
  | _, _ => return -1

/-- The loop of `isdirempty`. -/
def isdiremptyFrom (dp : Ip) : List Nat → FsScript Bool
  | [] => return true
  | off :: rest => do
    let de ← readDirent sb dp .isdiremptyReadi off
    if de.inum ≠ 0 then return false else isdiremptyFrom dp rest

/-- Is the directory `dp` empty except for "." and ".." ? -/
def isdirempty (dp : Ip) : FsScript Bool := do
  let d ← atomic (inode dp)
  isdiremptyFrom sb dp (offsets (2 * direntSize) d.size)

/-- A string literal. -/
def literal (bytes : List UInt8) : Name := fun i => bytes[i]?.getD 0

/-- `"."` and `".."`. -/
def dot : Name := literal [46]
def dotdot : Name := literal [46, 46]

/-- The label `bad` of `sys_unlink`. -/
def unlinkBad (dp : Ip) : Sys Int := do
  onFs (iunlockput sb dp)
  end_op
  return -1

def sys_unlink (p : Pid) (locals : Locals) : (path : Option (List UInt8)) → Sys Int
  | none => return -1
  | some path => do
    begin_op
    let cwd ← myCwd p
    match ← onFs (nameiparent sb cwd path locals.name) with
    | (none, _) =>
      end_op
      return -1
    | (some dp, name) =>
      onFs₁ (ilock sb dp)
      -- cannot unlink "." or ".."
      if namecmp name dot = 0 ∨ namecmp name dotdot = 0 then unlinkBad sb dp
      else match ← onFs (dirlookup sb dp name) with
        | none => unlinkBad sb dp
        | some (ip, off) =>
          onFs₁ (ilock sb ip)
          let i ← onFs₁ (inode ip)
          if i.nlink < 1 then panic .unlinkNlink
          else
            let busy ← if i.type = T_DIR then (! ·) <$> onFs (isdirempty sb ip) else pure false
            if busy then
              onFs (iunlockput sb ip)
              unlinkBad sb dp
            else
              let r ← onFs₁ (Fs.writei sb dp (.kernel (List.replicate direntSize 0))
                (UInt32.ofNat off) 16)
              if r ≠ direntSize then panic .unlinkWritei
              else
                if i.type = T_DIR then
                  onFs₁ (assign dp fun d => { d with nlink := d.nlink - 1 })
                  onFs₁ (Fs.iupdate sb dp)
                onFs (iunlockput sb dp)
                onFs₁ (assign ip fun d => { d with nlink := d.nlink - 1 })
                onFs₁ (Fs.iupdate sb ip)
                onFs (iunlockput sb ip)
                end_op
                return 0

/-- The entries "." and ".." of a new directory; could both be made? -/
def createDots (ip dp : Ip) : FsScript Bool := do
  let i ← atomic (inode ip)
  let r ← dirlink sb ip dot i.inum
  if r < 0 then return false
  else
    let d ← atomic (inode dp)
    let r ← dirlink sb ip dotdot d.inum
    return ¬ r < 0

/-- The label `fail` of `create`: de-allocate `ip`. -/
def createFail (dp ip : Ip) : FsScript (Option Ip) := do
  atomic (assign ip fun i => { i with nlink := 0 })
  atomic (Fs.iupdate sb ip)
  iunlockput sb ip
  iunlockput sb dp
  return none

/-- The part of `create` that makes a new inode in the locked directory `dp`. -/
def createNew (dp : Ip) (name : Name) (type major minor : Int16) : FsScript (Option Ip) := do
  let d ← atomic (inode dp)
  match ← ialloc sb d.dev type with
  | none =>
    iunlockput sb dp
    return none
  | some ip =>
    atomic (ilock sb ip)
    atomic (assign ip fun i => { i with major := major, minor := minor, nlink := 1 })
    atomic (Fs.iupdate sb ip)
    -- no ip->nlink++ for ".": avoid cyclic ref count
    let made ← if type = T_DIR then createDots sb ip dp else pure true
    if made = false then createFail sb dp ip
    else
      let i ← atomic (inode ip)
      let r ← dirlink sb dp name i.inum
      if r < 0 then createFail sb dp ip
      else
        if type = T_DIR then
          -- for ".."
          atomic (assign dp fun d => { d with nlink := d.nlink + 1 })
          atomic (Fs.iupdate sb dp)
        iunlockput sb dp
        return some ip

/-- Create an inode at `path`, or find the file that is there; the inode is locked. -/
def create (cwd : Ip) (path : List UInt8) (type major minor : Int16) (name : Name) :
    FsScript (Option Ip) := do
  match ← nameiparent sb cwd path name with
  | (none, _) => return none
  | (some dp, name) =>
    atomic (ilock sb dp)
    match ← dirlookup sb dp name with
    | some (ip, _) =>
      iunlockput sb dp
      atomic (ilock sb ip)
      let i ← atomic (inode ip)
      if type = T_FILE ∧ (i.type = T_FILE ∨ i.type = T_DEVICE) then return some ip
      else
        iunlockput sb ip
        return none
    | none => createNew sb dp name type major minor

/-- Is a flag set? -/
def hasFlag (omode flag : UInt32) : Bool := omode &&& flag ≠ 0

/-- The string at `target`: the bytes up to the first zero byte. -/
def cstring (memory : List UInt8) : List UInt8 := memory.takeWhile (· ≠ 0)

/-- The loop of `sys_open` that follows symbolic links, after `retry` of them: the inode at its end, which
is locked, and the count, or nothing when the call has failed. `target` is the memory from the buffer on;
`fuel` bounds the rounds. -/
def follow (cwd : Ip) (name : Name) (nofollow : Bool) :
    (fuel retry : Nat) → (target : List UInt8) → Ip → Sys (Option (Ip × Nat))
  | 0, retry, _, ip => return some (ip, retry)
  | fuel + 1, retry, target, ip => do
    let i ← onFs₁ (inode ip)
    if i.type = T_SYMLINK ∧ nofollow = false ∧ retry < 10 then
      let (r, bytes) ← onFs₁ (Fs.readi sb ip (fun _ _ => false) 0 (UInt32.ofNat i.size))
      if r ≠ i.size then
        onFs (iunlockput sb ip)
        end_op
        return none
      else
        onFs (iunlockput sb ip)
        let target := overwrite target 0 bytes
        match ← onFs (namei sb cwd (cstring target) name) with
        | none =>
          end_op
          return none
        | some ip =>
          onFs₁ (ilock sb ip)
          let i ← onFs₁ (inode ip)
          follow cwd name nofollow fuel (if i.type = T_SYMLINK then retry + 1 else retry) target ip
    else return some (ip, retry)

/-- An error return of `sys_open` with `ip` locked. -/
def openFail (ip : Ip) : Sys Int := do
  onFs (iunlockput sb ip)
  end_op
  return -1

/-- `sys_open` once the inode is found: a file and a descriptor for it. -/
def openFile (p : Pid) (omode : UInt32) (ip : Ip) : Sys Int := do
  match ← filealloc with
  | none => openFail sb ip
  | some f =>
    match ← fdalloc p f with
    | none =>
      fileclose sb f
      openFail sb ip
    | some fd =>
      let i ← onFs₁ (inode ip)
      putFile f fun file =>
        if i.type = T_DEVICE then { file with type := .device, major := i.major }
        else { file with type := .inode, off := 0 }
      putFile f fun file => { file with
        ip := ip
        readable := ¬ hasFlag omode O_WRONLY
        writable := hasFlag omode O_WRONLY ∨ hasFlag omode O_RDWR }
      if hasFlag omode O_TRUNC ∧ i.type = T_FILE then onFs₁ (Fs.itrunc sb ip)
      onFs₁ (iunlock ip)
      end_op
      return fd.val

/-- The inode that `sys_open` starts with, which is locked, or nothing when the call has failed. -/
def openStart (p : Pid) (locals : Locals) (omode : UInt32) (path : List UInt8) : Sys (Option Ip) := do
  let cwd ← myCwd p
  if hasFlag omode O_CREATE then
    match ← onFs (create sb cwd path T_FILE 0 0 locals.name) with
    | none =>
      end_op
      return none
    | some ip => return some ip
  else
    match ← onFs (namei sb cwd path locals.name) with
    | none =>
      end_op
      return none
    | some ip =>
      onFs₁ (ilock sb ip)
      let i ← onFs₁ (inode ip)
      if i.type = T_DIR ∧ omode ≠ O_RDONLY then
        onFs (iunlockput sb ip)
        end_op
        return none
      else return some ip

def sys_open (O_NOFOLLOW : UInt32) (p : Pid) (locals : Locals) (omode : UInt32) :
    (path : Option (List UInt8)) → Sys Int
  | none => return -1
  | some path => do
    begin_op
    match ← openStart sb p locals omode path with
    | none => return -1
    | some ip =>
      let cwd ← myCwd p
      match ← follow sb cwd locals.name (hasFlag omode O_NOFOLLOW) 11 0 locals.target ip with
      | none => return -1
      | some (ip, retry) =>
        if 10 ≤ retry then openFail sb ip
        else
          let i ← onFs₁ (inode ip)
          if i.type = T_DEVICE ∧ (i.major < 0 ∨ NDEV ≤ i.major.toInt) then openFail sb ip
          else openFile sb p omode ip

def sys_mkdir (p : Pid) (locals : Locals) (path : Option (List UInt8)) : Sys Int := do
  begin_op
  match path with
  | none =>
    end_op
    return -1
  | some path =>
    let cwd ← myCwd p
    match ← onFs (create sb cwd path T_DIR 0 0 locals.name) with
    | none =>
      end_op
      return -1
    | some ip =>
      onFs (iunlockput sb ip)
      end_op
      return 0

def sys_mknod (p : Pid) (locals : Locals) (major minor : Int16) (path : Option (List UInt8)) :
    Sys Int := do
  begin_op
  match path with
  | none =>
    end_op
    return -1
  | some path =>
    let cwd ← myCwd p
    match ← onFs (create sb cwd path T_DEVICE major minor locals.name) with
    | none =>
      end_op
      return -1
    | some ip =>
      onFs (iunlockput sb ip)
      end_op
      return 0

def sys_chdir (p : Pid) (locals : Locals) (path : Option (List UInt8)) : Sys Int := do
  begin_op
  match path with
  | none =>
    end_op
    return -1
  | some path =>
    let cwd ← myCwd p
    match ← onFs (namei sb cwd path locals.name) with
    | none =>
      end_op
      return -1
    | some ip =>
      onFs₁ (ilock sb ip)
      let i ← onFs₁ (inode ip)
      if i.type ≠ T_DIR then
        onFs (iunlockput sb ip)
        end_op
        return -1
      else
        onFs₁ (iunlock ip)
        onFs (iput sb cwd)
        end_op
        setCwd p ip
        return 0

def sys_symlink (p : Pid) (locals : Locals) (target path : Option (List UInt8)) : Sys Int := do
  begin_op
  match target, path with
  | some target, some path =>
    let cwd ← myCwd p
    match ← onFs (create sb cwd path T_SYMLINK 0 0 locals.name) with
    | none =>
      end_op
      return -1
    | some ip =>
      -- write the target string into inode's data block
      let len := target.length + 1
      let r ← onFs₁ (Fs.writei sb ip (.kernel (target ++ [0])) 0 (UInt32.ofNat len))
      if r ≠ len then
        onFs (iunlockput sb ip)
        end_op
        return -1
      else
        onFs₁ (assign ip fun i => { i with size := target.length })
        onFs₁ (Fs.iupdate sb ip)
        onFs (iunlockput sb ip)
        end_op
        return 0
  | _, _ =>
    end_op
    return -1

/-! ### `fork` and `exit` -/

/-- The process that `fork` makes; -1 when there is none to be had. -/
def fork (p np : Pid) : Sys Int := do
  let child ← atomic fun k => .ok (k.proc np, k)
  if child.used then return -1
  else
    let parent ← atomic fun k => .ok (k.proc p, k)
    (List.finRange NOFILE).forM fun fd =>
      match parent.ofile fd with
      | none => setFd np fd none
      | some f => do
        filedup f
        setFd np fd (some f)
    let cwd ← onFs₁ (idup parent.cwd)
    atomic fun k => .ok ((), setProc k np { k.proc np with used := true, cwd := cwd })
    return np.val

def exit (p : Pid) : Sys Int := do
  (List.finRange NOFILE).forM fun fd => do
    match ← getFd p fd with
    | none => return
    | some f =>
      fileclose sb f
      setFd p fd none
  let cwd ← myCwd p
  begin_op
  onFs (iput sb cwd)
  end_op
  atomic fun k => .ok ((), setProc k p { k.proc p with used := false })
  return 0

end Calls

end Csc3150.Namespace
