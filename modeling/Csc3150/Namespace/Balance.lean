/-
**Locks and references balance over a call.**

Between two calls every inode is unlocked, and its reference count is the number of current directories and
of open files that point to it (`InOrder`). Every call of `sysfile.c` on names keeps that, on every path
through it.

* `Kernel.cwds`, `Kernel.opens` — what the processes and the open files point to;
* `sys_link_balances`, `sys_unlink_balances`, … — one lemma for each call.
-/

import Csc3150.Library.Tally
import Csc3150.Namespace.Books
import Csc3150.Namespace.Following

namespace Csc3150.Namespace

open FileSystem Program Search Tally
open Program.Script (atomic)

/-! ### Who points to an inode -/

/-- The inode that an open file points to. -/
def File.node (file : File) : Option Ip :=
  if 0 < file.ref ∧ file.type.hasInode then some file.ip else none

/-- The current directory of a process. -/
def Proc.dir (proc : Proc) : Option Ip := if proc.used then some proc.cwd else none

/-- The current directories. -/
def Kernel.cwds (k : Kernel) : List Ip := (List.finRange NPROC).filterMap fun p => (k.proc p).dir

/-- The inodes of the open files. -/
def Kernel.opens (k : Kernel) : List Ip := (List.finRange NFILE).filterMap fun f => (k.file f).node

/-- The current directories of the other processes. -/
def Kernel.cwdsBut (k : Kernel) (p : Pid) : List Ip :=
  ((List.finRange NPROC).erase p).filterMap fun q => (k.proc q).dir

/-- The inodes of the other open files. -/
def Kernel.opensBut (k : Kernel) (f : FileIx) : List Ip :=
  ((List.finRange NFILE).erase f).filterMap fun g => (k.file g).node

section Tables

variable {k : Kernel} {p : Pid} {f : FileIx}

theorem cwds_setProc (proc : Proc) : (setProc k p proc).cwds.Perm (proc.dir.toList ++ k.cwdsBut p) :=
  filterMap_update (List.nodup_finRange _) (List.mem_finRange p) k.proc proc Proc.dir

theorem cwds_perm (k : Kernel) (p : Pid) : k.cwds.Perm ((k.proc p).dir.toList ++ k.cwdsBut p) := by
  have same := cwds_setProc (k := k) (p := p) (k.proc p)
  rwa [setProc, Function.update_eq_self] at same

theorem opens_setFile (file : File) : (setFile k f file).opens.Perm (file.node.toList ++ k.opensBut f) :=
  filterMap_update (List.nodup_finRange _) (List.mem_finRange f) k.file file File.node

theorem opens_perm (k : Kernel) (f : FileIx) : k.opens.Perm ((k.file f).node.toList ++ k.opensBut f) := by
  have same := opens_setFile (k := k) (f := f) (k.file f)
  rwa [setFile, Function.update_eq_self] at same

theorem setFile_self (file : File) : (setFile k f file).file f = file := Function.update_self ..

theorem setFile_setFile (file file' : File) : setFile (setFile k f file) f file' = setFile k f file' := by
  rw [setFile, setFile, setFile, Function.update_idem]

/-- The processes stay where they are. -/
theorem cwds_eq {k' : Kernel} (same : ∀ q, (k'.proc q).dir = (k.proc q).dir) : k'.cwds = k.cwds := by
  unfold Kernel.cwds
  simp only [same]

theorem opens_eq {k' : Kernel} (same : ∀ g, (k'.file g).node = (k.file g).node) : k'.opens = k.opens := by
  unfold Kernel.opens
  simp only [same]

/-- The inode of an open file is counted. -/
theorem mem_opens {i : Ip} (points : (k.file f).node = some i) : i ∈ k.opens :=
  List.mem_filterMap.mpr ⟨f, List.mem_finRange f, points⟩

theorem node_eq_none {file : File} (free : file.ref < 1) : file.node = none :=
  if_neg fun open' => by omega

end Tables

/-! ### Between calls -/

/-- What the open files have, and those in `watch` are taken for files. -/
def Kernel.rest (limit : Nat) (watch : FileIx → Prop) (k : Kernel) : Rest where
  limit := limit
  uses i := k.opens.count i
  files i := ∃ f, watch f ∧ (k.file f).node = some i

theorem rest_eq {k k' : Kernel} {limit : Nat} {watch : FileIx → Prop}
    (same : ∀ g, (k'.file g).node = (k.file g).node) : k'.rest limit watch = k.rest limit watch := by
  unfold Kernel.rest
  rw [opens_eq same]
  simp only [same]

/-- No call is in progress. -/
structure InOrder (limit : Nat) (sb : Superblock) (watch : FileIx → Prop) (k : Kernel) : Prop where
  books : Books sb (k.rest limit watch) k.cwds [] k.fs
  closed : ∀ f, (k.file f).ref < 1 → (k.file f).type.hasInode = false

/-- The kernel inside a call. -/
def Kernel.during (k : Kernel) (fs : Fs) : Kernel := { k with fs := fs, ops := k.ops ++ [.begin_op] }

/-- What a call leaves. -/
structure Balances (limit : Nat) (sb : Superblock) (watch : FileIx → Prop) (k k' : Kernel) : Prop where
  order : InOrder limit sb watch k'
  ops : k'.ops = k.ops ∨ k'.ops = k.ops ++ [.begin_op, .end_op]
  modes : ∀ f, (k'.file f).writable = (k.file f).writable

/-- A script of the file system, and what follows it in a system call. -/
theorem onFs_seq {α β : Type} {x : FsScript α} {f : α → Sys β} {k : Kernel} {stops : Halt → Prop}
    {middle : α → Fs → Prop} {post : β → Kernel → Prop} (first : Meets x.run k.fs stops middle)
    (then_ : ∀ a fs', middle a fs' → Meets (f a).run { k with fs := fs' } stops post) :
    Meets (onFs x >>= f).run k stops post := by
  have run : Meets (onFs x).run k stops fun a k' => middle a k'.fs ∧ k' = { k with fs := k'.fs } := by
    refine (meets_onFs first).also fun a k' ends => ?_
    rw [run_onFs] at ends
    obtain ⟨result, -, rest⟩ := Outcome.bind_eq_ok.mp ends
    cases rest
    rfl
  refine .seq run fun a k' after => ?_
  rw [after.2]
  exact then_ a k'.fs after.1

theorem onFs₁_seq {α β : Type} {x : FsProg α} {f : α → Sys β} {k : Kernel} {stops : Halt → Prop}
    {middle : α → Fs → Prop} {post : β → Kernel → Prop} (first : Meets x k.fs stops middle)
    (then_ : ∀ a fs', middle a fs' → Meets (f a).run { k with fs := fs' } stops post) :
    Meets (onFs₁ x >>= f).run k stops post :=
  onFs_seq (.atomic first) then_

/-! ### Steps inside a call -/

section During

variable {α β : Type} {f : α → Sys β} {k : Kernel} {fs : Fs} {i : Ip} {stops : Halt → Prop}
  {middle : α → Fs → Prop} {post : β → Kernel → Prop}

theorem during_seq {x : FsScript α} (first : Meets x.run fs stops middle)
    (then_ : ∀ a fs', middle a fs' → Meets (f a).run (k.during fs') stops post) :
    Meets (onFs x >>= f).run (k.during fs) stops post :=
  onFs_seq first then_

theorem during_seq₁ {x : FsProg α} (first : Meets x fs stops middle)
    (then_ : ∀ a fs', middle a fs' → Meets (f a).run (k.during fs') stops post) :
    Meets (onFs₁ x >>= f).run (k.during fs) stops post :=
  onFs₁_seq first then_

theorem during_begin {f : Unit → Sys β} (then_ : Meets (f ()).run (k.during k.fs) stops post) :
    Meets (begin_op >>= f).run k stops post :=
  .seq_run rfl then_

theorem during_cwd {p : Pid} {f : Ip → Sys β}
    (then_ : Meets (f (k.proc p).cwd).run (k.during fs) stops post) :
    Meets (myCwd p >>= f).run (k.during fs) stops post :=
  .seq_run rfl then_

theorem during_inode {f : Inode → Sys β} (then_ : Meets (f (fs.inode i)).run (k.during fs) stops post) :
    Meets (onFs₁ (inode i) >>= f).run (k.during fs) stops post :=
  .seq_run rfl then_

/-- Fields of an inode are assigned and written back. -/
theorem during_update {sb : Superblock} {f : Unit → Sys β} {change : Dinode → Dinode}
    {middle : Unit → Fs → Prop}
    (first : Meets (Fs.iupdate sb i) (fs.setInode i { fs.inode i with
      toDinode := change (fs.inode i).toDinode }) stops middle)
    (then_ : ∀ a fs', middle a fs' → Meets (f a).run (k.during fs') stops post) :
    Meets (onFs₁ (assign i change) >>= fun _ => onFs₁ (Fs.iupdate sb i) >>= f).run (k.during fs)
      stops post :=
  .seq_run rfl (during_seq₁ first then_)

end During

/-! ### Parts of `sys_open` and `sys_unlink` -/

/-- `sys_open` sets the type of the file. -/
def File.typed (i : Inode) (file : File) : File :=
  if i.type = T_DEVICE then { file with type := .device, major := i.major }
  else { file with type := .inode, off := 0 }

/-- `sys_open` sets the inode and the mode of the file. -/
def File.opened (omode : UInt32) (ip : Ip) (file : File) : File :=
  { file with
    ip := ip
    readable := ¬ hasFlag omode O_WRONLY
    writable := hasFlag omode O_WRONLY ∨ hasFlag omode O_RDWR }

/-- `sys_open` once there are a file and a descriptor. -/
def openWith (sb : Superblock) (omode : UInt32) (ip : Ip) (f : FileIx) (fd : Fd) : Sys Int := do
  let i ← onFs₁ (inode ip)
  putFile f (File.typed i)
  putFile f (File.opened omode ip)
  if hasFlag omode O_TRUNC ∧ i.type = T_FILE then onFs₁ (Fs.itrunc sb ip)
  onFs₁ (iunlock ip)
  end_op
  return fd.val

section Unlink

variable (sb : Superblock) (dp ip : Ip)

/-- The end of `sys_unlink`. -/
def unlinkEnd : Sys Int := do
  onFs (iunlockput sb dp)
  onFs₁ (assign ip fun d => { d with nlink := d.nlink - 1 })
  onFs₁ (Fs.iupdate sb ip)
  onFs (iunlockput sb ip)
  end_op
  return 0

/-- `sys_unlink` from the clearing of the entry on. -/
def unlinkEntry (type : Int16) (off : Nat) : Sys Int := do
  let r ← onFs₁ (Fs.writei sb dp (.kernel (List.replicate direntSize 0)) (UInt32.ofNat off) 16)
  if r ≠ direntSize then panic .unlinkWritei
  else
    if type = T_DIR then
      onFs₁ (assign dp fun d => { d with nlink := d.nlink - 1 })
      onFs₁ (Fs.iupdate sb dp)
    unlinkEnd sb dp ip

/-- `sys_unlink` once the inode of the entry is locked. -/
def unlinkFound (off : Nat) : Sys Int := do
  let i ← onFs₁ (inode ip)
  if i.nlink < 1 then panic .unlinkNlink
  else
    let busy ← if i.type = T_DIR then (! ·) <$> onFs (isdirempty sb ip) else pure false
    if busy then
      onFs (iunlockput sb ip)
      unlinkBad sb dp
    else unlinkEntry sb dp ip i.type off

end Unlink

section Calls

variable {limit : Nat} {sb : Superblock} {watch : FileIx → Prop} {k : Kernel} {fs : Fs} {p : Pid} {i dp : Ip}
  {rest : Rest} {held : List Ip}

theorem cwd_mem (alive : (k.proc p).used = true) : (k.proc p).cwd ∈ k.cwds := by
  refine List.mem_filterMap.mpr ⟨p, List.mem_finRange p, ?_⟩
  rw [Proc.dir, if_pos alive]

/-- A call ends with the references that the processes have. -/
theorem InOrder.ends (here : InOrder limit sb watch k)
    (after : Books sb (k.rest limit watch) k.cwds [] fs) :
    Balances limit sb watch k { k with fs := fs, ops := k.ops ++ [.begin_op] ++ [.end_op] } :=
  ⟨⟨after, here.closed⟩, Or.inr (List.append_assoc _ _ _), fun _ => rfl⟩

theorem InOrder.finishes (here : InOrder limit sb watch k)
    (after : Books sb (k.rest limit watch) k.cwds [] fs) {r : Int} :
    Meets (end_op >>= fun _ => (pure r : Sys Int)).run (k.during fs) Awake fun _ k' =>
      Balances limit sb watch k k' :=
  .seq_run rfl (.done (here.ends after))

/-- A call ends with an inode to put. -/
theorem InOrder.puts (here : InOrder limit sb watch k)
    (locked : Books sb (k.rest limit watch) (i :: k.cwds) [i] fs) {r : Int} :
    Meets (onFs (iunlockput sb i) >>= fun _ => end_op >>= fun _ => (pure r : Sys Int)).run (k.during fs)
      Awake fun _ k' => Balances limit sb watch k k' :=
  during_seq locked.iunlockput fun _ _ after => here.finishes after.1

variable (root : ROOTINO < sb.ninodes) (width : sb.ninodes ≤ 2 ^ 16)
  (here : InOrder limit sb watch k) (alive : (k.proc p).used = true)

include root width here alive

theorem sys_mkdir_balances (locals : Locals) (path : Option (List UInt8)) :
    Meets (sys_mkdir sb p locals path).run k Awake fun _ k' => Balances limit sb watch k k' := by
  refine during_begin ?_
  cases path with
  | none => exact here.finishes here.books
  | some path =>
    refine during_cwd ?_
    refine during_seq (here.books.create root width (cwd_mem alive) path) fun r fs₁ created => ?_
    rcases created with ⟨rfl, after⟩ | ⟨i, rfl, locked, -⟩
    · exact here.finishes after
    · exact here.puts locked

theorem sys_mknod_balances (locals : Locals) (major minor : Int16) (path : Option (List UInt8)) :
    Meets (sys_mknod sb p locals major minor path).run k Awake fun _ k' =>
      Balances limit sb watch k k' := by
  refine during_begin ?_
  cases path with
  | none => exact here.finishes here.books
  | some path =>
    refine during_cwd ?_
    refine during_seq (here.books.create root width (cwd_mem alive) path) fun r fs₁ created => ?_
    rcases created with ⟨rfl, after⟩ | ⟨i, rfl, locked, -⟩
    · exact here.finishes after
    · exact here.puts locked

omit width in
theorem sys_chdir_balances (locals : Locals) (path : Option (List UInt8)) :
    Meets (sys_chdir sb p locals path).run k Awake fun _ k' => Balances limit sb watch k k' := by
  refine during_begin ?_
  cases path with
  | none => exact here.finishes here.books
  | some path =>
    refine during_cwd ?_
    refine during_seq (here.books.namei root (cwd_mem alive) path) fun r fs₁ found => ?_
    cases r with
    | none => exact here.finishes found
    | some i =>
      refine during_seq₁ (found.ilock List.mem_cons_self List.not_mem_nil) fun _ fs₂ locked => ?_
      obtain ⟨locked, -⟩ := locked
      refine during_inode ?_
      by_cases file : (fs₂.inode i).type ≠ T_DIR
      · rw [if_pos file]
        exact here.puts locked
      · rw [if_neg file]
        refine during_seq₁ locked.iunlock fun _ fs₃ unlocked => ?_
        -- the process gives up its old directory for the new one
        have cwds : k.cwds.Perm ((k.proc p).cwd :: k.cwdsBut p) := by
          have perm := cwds_perm k p
          rwa [Proc.dir, if_pos alive] at perm
        have moved := unlocked.1.perm ((cwds.cons i).trans (List.Perm.swap _ _ _)) (List.Perm.refl _)
        refine during_seq (moved.iput fun isLocked => absurd isLocked List.not_mem_nil) fun _ fs₄ after => ?_
        refine .seq_run rfl (.seq_run rfl (.done ⟨⟨after.1.perm ?_ (List.Perm.refl _), here.closed⟩,
          Or.inr (List.append_assoc _ _ _), fun _ => rfl⟩))
        have final := cwds_setProc (k := k) (p := p) { k.proc p with cwd := i }
        have dir : Proc.dir { k.proc p with cwd := i } = some i := if_pos alive
        rw [dir] at final
        exact final.symm

/-! ### `sys_link` and `sys_unlink` -/

omit root width alive in
theorem linkBad_balances (found : Books sb (k.rest limit watch) (i :: k.cwds) [] fs) :
    Meets (linkBad sb i).run (k.during fs) Awake fun _ k' => Balances limit sb watch k k' := by
  refine during_seq₁ (found.ilock List.mem_cons_self List.not_mem_nil) fun _ fs₁ locked => ?_
  refine during_update (locked.1.iupdate List.mem_cons_self rfl rfl le_rfl fun _ => rfl)
    fun _ fs₂ updated => ?_
  exact here.puts updated.1

theorem sys_link_balances (locals : Locals) (old new : Option (List UInt8)) :
    Meets (sys_link sb p locals old new).run k Awake fun _ k' => Balances limit sb watch k k' := by
  cases old with
  | none => exact .done ⟨here, Or.inl rfl, fun _ => rfl⟩
  | some old =>
    cases new with
    | none => exact .done ⟨here, Or.inl rfl, fun _ => rfl⟩
    | some new =>
      have member := cwd_mem alive
      refine during_begin (during_cwd ?_)
      refine during_seq (here.books.namei root member old) fun r fs₁ found => ?_
      cases r with
      | none => exact here.finishes found
      | some i =>
        refine during_seq₁ (found.ilock List.mem_cons_self List.not_mem_nil) fun _ fs₂ locked => ?_
        obtain ⟨locked, -⟩ := locked
        refine during_inode ?_
        by_cases isDir : (fs₂.inode i).type = T_DIR
        · rw [if_pos isDir]
          exact here.puts locked
        · rw [if_neg isDir]
          refine during_update (locked.iupdate List.mem_cons_self rfl rfl le_rfl fun _ => rfl)
            fun _ fs₃ updated => ?_
          obtain ⟨updated, sameType, -⟩ := updated
          refine during_seq₁ updated.iunlock fun _ fs₄ unlocked => ?_
          obtain ⟨unlocked, disk, number⟩ := unlocked
          -- what is linked to is no directory
          have file : diskType sb fs₄ i ≠ T_DIR := by
            rw [(Keeps.same disk (number i)).2, updated.diskType_eq List.mem_cons_self, sameType]
            exact isDir
          refine during_seq (unlocked.namex root (List.mem_cons_of_mem _ member) true new)
            fun r fs₅ walked => ?_
          obtain ⟨r, nm⟩ := r
          obtain ⟨walked, keeps⟩ := walked
          cases r with
          | none => exact linkBad_balances here walked
          | some dp =>
            refine during_seq₁ (walked.ilock List.mem_cons_self List.not_mem_nil) fun _ fs₆ entered => ?_
            obtain ⟨entered, -, numbers, isType⟩ := entered
            refine during_inode (during_inode ?_)
            by_cases devices : (fs₆.inode dp).dev ≠ (fs₆.inode i).dev
            · rw [if_pos devices]
              exact during_seq entered.iunlockput fun _ fs₇ after => linkBad_balances here after.1
            · rw [if_neg devices]
              have second : i ∈ dp :: i :: k.cwds := List.mem_cons_of_mem _ List.mem_cons_self
              obtain ⟨positive, inside⟩ := entered.ledger.inum_range second
              have other : (fs₆.inode dp).type = T_DIR → (fs₆.inode i).inum ≠ (fs₆.inode dp).inum := by
                intro parent
                refine entered.inum_ne (entered.ref_pos (Or.inr List.mem_cons_self))
                  (entered.ref_pos (Or.inr second)) ?_
                rintro rfl
                refine file ?_
                rw [← (keeps i List.mem_cons_self).2, ← isType]
                exact parent
              refine during_seq (entered.dirlink List.mem_cons_self positive inside width
                fun parent => Or.inr (Or.inr (other parent))) fun r fs₇ linked => ?_
              obtain ⟨linked, -⟩ := linked
              by_cases failed : r < 0
              · rw [if_pos failed]
                exact during_seq linked.iunlockput fun _ fs₈ after => linkBad_balances here after.1
              · rw [if_neg failed]
                refine during_seq linked.iunlockput fun _ fs₈ dropped => ?_
                exact during_seq (dropped.1.iput fun isLocked => absurd isLocked List.not_mem_nil)
                  fun _ fs₉ after => here.finishes after.1

omit root width alive in
theorem unlinkEnd_balances (locked : Books sb (k.rest limit watch) (i :: dp :: k.cwds) [i, dp] fs) :
    Meets (unlinkEnd sb dp i).run (k.during fs) Awake fun _ k' => Balances limit sb watch k k' := by
  have swapped := locked.perm (List.Perm.swap dp i _) (List.Perm.swap dp i [])
  refine during_seq swapped.iunlockput fun _ fs₁ dropped => ?_
  refine during_update (dropped.1.iupdate List.mem_cons_self rfl rfl le_rfl fun _ => rfl)
    fun _ fs₂ updated => ?_
  exact here.puts updated.1

omit root width alive in
theorem unlinkEntry_balances {nm : Name} {n j : Nat} {type : Int16}
    (locked : Books sb (k.rest limit watch) (i :: dp :: k.cwds) [i, dp] fs)
    (isDir : (fs.inode dp).type = T_DIR)
    (isEntry : entry (content sb fs.disk (fs.inode dp).inum) j = some (key nm, n)) :
    Meets (unlinkEntry sb dp i type (direntSize * j)).run (k.during fs) Awake fun _ k' =>
      Balances limit sb watch k k' := by
  have second : dp ∈ [i, dp] := List.mem_cons_of_mem _ List.mem_cons_self
  refine during_seq₁ (locked.clearDirent second isDir isEntry) fun r fs₁ cleared => ?_
  obtain ⟨cleared, -⟩ := cleared
  by_cases short : r ≠ direntSize
  · rw [if_pos short]
    exact .atomic (.of_error rfl Halt.noConfusion)
  · rw [if_neg short]
    by_cases directory : type = T_DIR
    · rw [if_pos directory]
      exact during_update (cleared.iupdate second rfl rfl le_rfl fun _ => rfl) fun _ fs₂ updated =>
        unlinkEnd_balances here updated.1
    · rw [if_neg directory]
      exact unlinkEnd_balances here cleared

omit here root width alive in
theorem run_busy {empty : Bool} (run : (isdirempty sb i).run fs = .ok (empty, fs)) :
    ((! ·) <$> onFs (isdirempty sb i)).run (k.during fs) = .ok (!empty, k.during fs) := by
  have reads : (onFs (isdirempty sb i)).run (k.during fs) = .ok (empty, k.during fs) := by
    rw [run_onFs]
    exact Outcome.bind_of_ok run
  show (onFs (isdirempty sb i) >>= fun empty => (pure (!empty) : Sys Bool)).run _ = _
  rw [Script.run_bind]
  exact bind_run reads

omit root width alive in
theorem unlinkFound_balances {nm : Name} {n j : Nat}
    (locked : Books sb (k.rest limit watch) (i :: dp :: k.cwds) [i, dp] fs)
    (isDir : (fs.inode dp).type = T_DIR)
    (isEntry : entry (content sb fs.disk (fs.inode dp).inum) j = some (key nm, n)) :
    Meets (unlinkFound sb dp i (direntSize * j)).run (k.during fs) Awake fun _ k' =>
      Balances limit sb watch k k' := by
  have first : i ∈ [i, dp] := List.mem_cons_self
  refine during_inode ?_
  by_cases dead : (fs.inode i).nlink < 1
  · rw [if_pos dead]
    exact .atomic (.of_error rfl Halt.noConfusion)
  · rw [if_neg dead]
    by_cases directory : (fs.inode i).type = T_DIR
    · obtain ⟨dir, -⟩ := locked.ledger.openDir first directory
      obtain ⟨empty, run, -⟩ := run_isdirempty dir
      rw [if_pos directory]
      refine .seq_run (run_busy run) ?_
      dsimp only
      by_cases notEmpty : (!empty) = true
      · rw [if_pos notEmpty]
        exact during_seq locked.iunlockput fun _ fs₁ after => here.puts after.1
      · rw [if_neg notEmpty]
        exact unlinkEntry_balances here locked isDir isEntry
    · rw [if_neg directory]
      refine .seq_run (a := false) rfl ?_
      dsimp only
      rw [if_neg Bool.false_ne_true]
      exact unlinkEntry_balances here locked isDir isEntry

omit width in
theorem sys_unlink_balances (locals : Locals) (path : Option (List UInt8)) :
    Meets (sys_unlink sb p locals path).run k Awake fun _ k' => Balances limit sb watch k k' := by
  cases path with
  | none => exact .done ⟨here, Or.inl rfl, fun _ => rfl⟩
  | some path =>
    refine during_begin (during_cwd ?_)
    refine during_seq (here.books.namex root (cwd_mem alive) true path) fun r fs₁ walked => ?_
    obtain ⟨r, nm⟩ := r
    obtain ⟨walked, -⟩ := walked
    cases r with
    | none => exact here.finishes walked
    | some dp =>
      refine during_seq₁ (walked.ilock List.mem_cons_self List.not_mem_nil) fun _ fs₂ locked => ?_
      obtain ⟨locked, -⟩ := locked
      dsimp only
      by_cases special : namecmp nm dot = 0 ∨ namecmp nm dotdot = 0
      · rw [if_pos special]
        exact here.puts locked
      · rw [if_neg special]
        refine during_seq (locked.dirlookup List.mem_cons_self) fun r fs₃ found => ?_
        obtain ⟨isDir, ⟨rfl, rfl⟩ | ⟨i, n, j, rfl, first, entered, disk, number, numbers⟩⟩ := found
        · exact here.puts locked
        · have isEntry := (lookup_eq_some.mp first).1
          -- no other entry names the directory itself
          have known := locked.ledger.ref_pos (i := dp) List.mem_cons_self
          have apart : i ≠ dp := by
            rintro rfl
            have same : (fs₂.inode i).inum = n := (numbers i known).symm.trans number
            have own : entry (content sb fs₂.disk (fs₂.inode i).inum) j =
                some (key nm, (fs₂.inode i).inum) := by
              rw [isEntry, same]
            have plain := (locked.tidy _ (locked.ledger.cached List.mem_cons_self).inUse).plain
              ((locked.diskType_eq List.mem_cons_self).trans isDir) own
            rcases plain with isDot | isDotdot
            · exact special (Or.inl ((namecmp_eq_zero _ _).mpr isDot))
            · exact special (Or.inr ((namecmp_eq_zero _ _).mpr isDotdot))
          have keeps : Keeps sb fs₂ fs₃ dp := .same disk (numbers dp known)
          refine during_seq₁ (entered.ilock List.mem_cons_self fun member =>
            apart (List.mem_singleton.mp member)) fun _ fs₄ both => ?_
          obtain ⟨both, disk', numbers', -⟩ := both
          have keeps' : Keeps sb fs₃ fs₄ dp := .same disk' (numbers' dp)
          have isDir' : (fs₄.inode dp).type = T_DIR := by
            rw [← both.diskType_eq (List.mem_cons_of_mem _ List.mem_cons_self), (keeps.trans keeps').2,
              locked.diskType_eq List.mem_cons_self]
            exact isDir
          have isEntry' : entry (content sb fs₄.disk (fs₄.inode dp).inum) j = some (key nm, n) := by
            rw [disk', disk, (keeps.trans keeps').1]
            exact isEntry
          exact unlinkFound_balances here both isDir' isEntry'

/-! ### `sys_symlink` -/

omit root width alive in
/-- The transient size counts the terminator. -/
theorem storeTarget_balances (locked : Books sb (k.rest limit watch) (i :: k.cwds) [i] fs)
    (link : (fs.inode i).type = T_SYMLINK) {target : List UInt8}
    (fits : target.length ≤ limit ∧ target.length < MAXPATH ∨ MAXFILE * BSIZE ≤ limit) :
    Meets (storeTarget sb target i).run (k.during fs) Awake fun _ k' =>
      Balances limit sb watch k k' := by
  have first : i ∈ [i] := List.mem_cons_self
  have file : (fs.inode i).type ≠ T_DIR := by
    rw [link]
    decide
  refine during_seq₁ (locked.writeFile first file _ _ _) fun r fs₁ wrote => ?_
  rcases wrote with ⟨rfl, rfl⟩ | ⟨wrote, sameType, number, others, tot, rfl, upper, size⟩
  · rw [if_pos (by omega)]
    exact here.puts locked
  · have file' : (fs₁.inode i).type ≠ T_DIR := sameType ▸ file
    have zero : (0 : UInt32).toNat = 0 := rfl
    rw [zero, Nat.zero_add] at size
    have before : (fs.inode i).size ≤ limit := by
      have cached := locked.ledger.cached first
      have short := (locked.tidy _ cached.inUse).short ((locked.diskType_eq first).trans link)
      rwa [content_length, ← cached.same] at short
    have small := wrote.ledger.size_le first
    by_cases part : ((tot : Nat) : Int) ≠ (target.length + 1 : Nat)
    · rw [if_pos part]
      refine here.puts (wrote.tighten (TidyBut.all (number ▸ others) fun _ => ⟨fun isDir => ?_, fun _ => ?_⟩))
      · exact absurd ((wrote.diskType_eq first).symm.trans isDir) file'
      · rw [content_length, ← (wrote.ledger.cached first).same]
        rcases fits with ⟨fits, path⟩ | loose
        · have count : (UInt32.ofNat (target.length + 1)).toNat = target.length + 1 :=
            UInt32.toNat_ofNat_of_lt' (lt_of_le_of_lt path (by decide))
          rw [count] at upper
          show (fs₁.inode i).size ≤ limit
          omega
        · exact small.trans loose
    · rw [if_neg part]
      have fewer : target.length ≤ (fs₁.inode i).size := by omega
      have short : target.length ≤ limit := by omega
      refine during_update (wrote.cut first file' fewer short (number ▸ others))
        fun _ fs₂ updated => ?_
      exact here.puts (updated.1.tighten updated.2)

theorem sys_symlink_balances (locals : Locals) (target path : Option (List UInt8))
    (fits : ∀ bytes, target = some bytes →
      bytes.length ≤ limit ∧ bytes.length < MAXPATH ∨ MAXFILE * BSIZE ≤ limit) :
    Meets (sys_symlink sb p locals target path).run k Awake fun _ k' => Balances limit sb watch k k' := by
  refine during_begin ?_
  cases target with
  | none => exact here.finishes here.books
  | some target =>
    cases path with
    | none => exact here.finishes here.books
    | some path =>
      refine during_cwd ?_
      refine during_seq (here.books.create root width (cwd_mem alive) path) fun r fs₁ created => ?_
      rcases created with ⟨rfl, after⟩ | ⟨i, rfl, locked, type | ⟨isFile, -⟩⟩
      · exact here.finishes after
      · exact storeTarget_balances here locked type (fits target rfl)
      · exact absurd isFile (by decide)

/-! ### `sys_open` -/

omit root width alive in
theorem openFail_balances (locked : Books sb (k.rest limit watch) (i :: k.cwds) [i] fs) :
    Meets (openFail sb i).run (k.during fs) Awake fun _ k' => Balances limit sb watch k k' :=
  here.puts locked

/-- Where `sys_open` goes on: it has failed, or it has locked an inode. -/
def Proceeds (limit : Nat) (sb : Superblock) (watch : FileIx → Prop) (k : Kernel) (r : Option Ip)
    (k' : Kernel) : Prop :=
  (r = none ∧ Balances limit sb watch k k') ∨ ∃ i fs, r = some i ∧ k' = k.during fs ∧
    Books sb (k.rest limit watch) (i :: k.cwds) [i] fs

theorem openStart_balances (locals : Locals) (omode : UInt32) (path : List UInt8) :
    Meets (openStart sb p locals omode path).run (k.during k.fs) Awake (Proceeds limit sb watch k) := by
  refine during_cwd ?_
  by_cases creates : hasFlag omode O_CREATE = true
  · rw [if_pos creates]
    refine during_seq (here.books.create root width (cwd_mem alive) path) fun r fs₁ created => ?_
    rcases created with ⟨rfl, after⟩ | ⟨i, rfl, locked, -⟩
    · exact .seq_run rfl (.done (Or.inl ⟨rfl, here.ends after⟩))
    · exact .done (Or.inr ⟨i, fs₁, rfl, rfl, locked⟩)
  · rw [if_neg creates]
    refine during_seq (here.books.namei root (cwd_mem alive) path) fun r fs₁ found => ?_
    cases r with
    | none => exact .seq_run rfl (.done (Or.inl ⟨rfl, here.ends found⟩))
    | some i =>
      refine during_seq₁ (found.ilock List.mem_cons_self List.not_mem_nil) fun _ fs₂ locked => ?_
      obtain ⟨locked, -⟩ := locked
      refine during_inode ?_
      by_cases directory : (fs₂.inode i).type = T_DIR ∧ omode ≠ O_RDONLY
      · rw [if_pos directory]
        exact during_seq locked.iunlockput fun _ fs₃ after =>
          .seq_run rfl (.done (Or.inl ⟨rfl, here.ends after.1⟩))
      · rw [if_neg directory]
        exact .done (Or.inr ⟨i, fs₂, rfl, rfl, locked⟩)

omit width alive in
/-- The loop that follows symbolic links. -/
theorem follow_balances {cwd : Ip} (member : cwd ∈ k.cwds) {nm : Name} {nofollow : Bool} :
    ∀ {fuel retry : Nat} {target : List UInt8} {i : Ip} {fs : Fs},
    Books sb (k.rest limit watch) (i :: k.cwds) [i] fs →
    Meets (follow sb cwd nm nofollow fuel retry target i).run (k.during fs) Awake fun r k' =>
      Proceeds limit sb watch k (r.map Prod.fst) k' := by
  intro fuel
  induction fuel with
  | zero => exact fun {retry target i fs} locked => .done (Or.inr ⟨i, fs, rfl, rfl, locked⟩)
  | succ fuel ih =>
    intro retry target i fs locked
    rw [follow]
    refine during_inode ?_
    by_cases stays : (fs.inode i).type = T_SYMLINK ∧ nofollow = false ∧ retry < 10
    · rw [if_pos stays]
      refine during_seq₁ (locked.readi List.mem_cons_self _ _ _) fun r fs₁ same => ?_
      subst same
      dsimp only
      by_cases short : r.1 ≠ (fs₁.inode i).size
      · rw [if_pos short]
        exact during_seq locked.iunlockput fun _ fs₂ after =>
          .seq_run rfl (.done (Or.inl ⟨rfl, here.ends after.1⟩))
      · rw [if_neg short]
        refine during_seq locked.iunlockput fun _ fs₂ dropped => ?_
        refine during_seq (dropped.1.namei root member _) fun r fs₃ found => ?_
        cases r with
        | none => exact .seq_run rfl (.done (Or.inl ⟨rfl, here.ends found⟩))
        | some j =>
          refine during_seq₁ (found.ilock List.mem_cons_self List.not_mem_nil) fun _ fs₄ next => ?_
          exact during_inode (ih next.1)
    · rw [if_neg stays]
      exact .done (Or.inr ⟨i, fs, rfl, rfl, locked⟩)

omit root width here alive in
theorem filealloc_ends (k : Kernel) :
    (filealloc.run k = .ok (none, k) ∧ ∀ f, (k.file f).ref ≠ 0) ∨
      ∃ f, (k.file f).ref = 0 ∧ filealloc.run k = .ok (some f, setFile k f { k.file f with ref := 1 }) := by
  rw [filealloc, Script.run_atomic]
  cases found : searchFin fun f => if (k.file f).ref = 0 then some f else none with
  | none =>
    refine Or.inl ⟨rfl, fun f free => ?_⟩
    have none := searchFin_eq_none_iff.mp found f
    rw [if_pos free] at none
    cases none
  | some f =>
    obtain ⟨f', isFree, -⟩ := searchFin_eq_some_iff.mp found
    split_ifs at isFree with free
    cases isFree
    exact Or.inr ⟨f, free, rfl⟩

omit root width here alive in
theorem fdalloc_ends (k : Kernel) (p : Pid) (f : FileIx) :
    ((fdalloc p f).run k = .ok (none, k) ∧ ∀ fd, (k.proc p).ofile fd ≠ none) ∨
      ∃ fd, (k.proc p).ofile fd = none ∧ (fdalloc p f).run k = .ok (some fd, setProc k p
        { k.proc p with ofile := Function.update (k.proc p).ofile fd (some f) }) := by
  rw [fdalloc, Script.run_atomic]
  cases found : searchFin fun fd => if (k.proc p).ofile fd = none then some fd else none with
  | none =>
    refine Or.inl ⟨rfl, fun fd free => ?_⟩
    have none := searchFin_eq_none_iff.mp found fd
    rw [if_pos free] at none
    cases none
  | some fd =>
    obtain ⟨fd', isFree, -⟩ := searchFin_eq_some_iff.mp found
    split_ifs at isFree with free
    cases isFree
    exact Or.inr ⟨fd, free, rfl⟩

/-- The file that `sys_open` makes of the entry `file`. -/
def openedFile (omode : UInt32) (ip : Ip) (i : Inode) (file : File) : File :=
  ({ file with ref := 1 }.typed i).opened omode ip

omit root width here alive in
theorem node_openedFile (omode : UInt32) (ip : Ip) (i : Inode) (file : File) :
    (openedFile omode ip i file).node = some ip := by
  rw [openedFile, File.node, if_pos]
  · rfl
  · rw [File.typed]
    split_ifs with device
    · exact ⟨Int.one_pos, rfl⟩
    · exact ⟨Int.one_pos, rfl⟩

/-- A new file `f` for the inode `i`. -/
structure Opened (limit : Nat) (sb : Superblock) (watch : FileIx → Prop) (k : Kernel) (omode : UInt32)
    (i : Ip) (type : Int16) (f : FileIx) (k' : Kernel) : Prop where
  order : InOrder limit sb (fun g => watch g ∧ g ≠ f) k'
  ops : k'.ops = k.ops ++ [.begin_op, .end_op]
  free : (k.file f).ref = 0
  file : ∃ x : Inode, x.type = type ∧
    k'.file = Function.update k.file f (openedFile omode i x (k.file f))
  type : diskType sb k'.fs i = type

omit root width here alive in
theorem fileclose_new {k : Kernel} {f : FileIx} (one : (k.file f).ref = 1)
    (noInode : (k.file f).type.hasInode = false) :
    (fileclose sb f).run k = .ok ((), setFile k f { k.file f with ref := 0, type := .none }) := by
  have drop : (fileDrop f).run k =
      .ok (some (k.file f), setFile k f { k.file f with ref := 0, type := .none }) := by
    rw [fileDrop, Script.run_atomic]
    dsimp only
    rw [one, if_neg (by decide), if_neg (by decide)]
  rw [fileclose, Script.run_bind, bind_run drop]
  dsimp only
  rw [noInode, if_neg Bool.false_ne_true]
  rfl

omit root width alive in
/-- The call gives the reference and the lock of the inode to the new file. -/
theorem opened_balances {omode : UInt32} {type : Int16} {f : FileIx} {x : Inode} {proc : Proc}
    {k' : Kernel} (free : (k.file f).ref = 0) (isType : x.type = type)
    (file : k'.file = Function.update k.file f (openedFile omode i x (k.file f)))
    (procs : k'.proc = Function.update k.proc p proc) (dir : proc.dir = (k.proc p).dir)
    (ops : k'.ops = k.ops ++ [.begin_op, .end_op])
    (after : Books sb (k.rest limit watch) (i :: k.cwds) [] k'.fs) (typed : diskType sb k'.fs i = type) :
    Opened limit sb watch k omode i type f k' := by
  have cwds : k'.cwds = k.cwds := cwds_eq fun q => by
    rw [procs]
    by_cases isP : q = p
    · rw [isP, Function.update_self, dir]
    · rw [Function.update_of_ne isP]
  -- the new file is one more that points to the inode
  have before := opens_perm k f
  rw [node_eq_none (Int.lt_of_le_of_lt (le_of_eq free) Int.one_pos)] at before
  have opens : k'.opens.Perm (i :: k.opens) := by
    have now := opens_setFile (k := k) (f := f) (openedFile omode i x (k.file f))
    rw [node_openedFile] at now
    have same : k'.opens = (setFile k f (openedFile omode i x (k.file f))).opens :=
      opens_eq fun g => by rw [file, setFile]
    rw [same]
    exact now.trans (before.symm.cons i)
  refine ⟨⟨after.divide rfl (fun j => ?_) (fun j => Int.natCast_nonneg _) fun j points => ?_,
    fun g => ?_⟩, ops, free, ⟨x, isType, file⟩, typed⟩
  · show (k'.opens.count j : Int) + (k'.cwds.count j : Nat) = (k.opens.count j : Int) + _
    rw [opens.count_eq j, cwds, List.count_cons, List.count_cons]
    push_cast
    omega
  · obtain ⟨g, ⟨watched, other⟩, points⟩ := points
    rw [file, Function.update_of_ne other] at points
    have known := after.files j ⟨g, watched, points⟩
    refine ⟨?_, known.2⟩
    have member : j ∈ k'.opens := opens.mem_iff.mpr (List.mem_cons_of_mem _ (mem_opens points))
    exact Int.natCast_pos.mpr (List.count_pos_iff.mpr member)
  · rw [file]
    by_cases isF : g = f
    · rw [isF, Function.update_self]
      intro unused
      have points := node_openedFile omode i x (k.file f)
      rw [node_eq_none unused] at points
      cases points
    · rw [Function.update_of_ne isF]
      exact here.closed g

omit root width alive in
/-- An entry of the table of files that was taken is given back. -/
theorem closed_balances {f : FileIx} {file : File} {k' : Kernel} (free : (k.file f).ref < 1)
    (unused : file.ref < 1) (noInode : file.type.hasInode = false)
    (files : k'.file = Function.update k.file f file) (mode : file.writable = (k.file f).writable)
    (procs : k'.proc = k.proc) (ops : k'.ops = k.ops ++ [.begin_op, .end_op])
    (after : Books sb (k.rest limit watch) k.cwds [] k'.fs) : Balances limit sb watch k k' := by
  have same : ∀ g, (k'.file g).node = (k.file g).node := by
    intro g
    rw [files]
    by_cases isF : g = f
    · rw [isF, Function.update_self, node_eq_none unused, node_eq_none free]
    · rw [Function.update_of_ne isF]
  have cwds : k'.cwds = k.cwds := cwds_eq fun q => by rw [procs]
  refine ⟨⟨?_, fun g => ?_⟩, Or.inr ops, fun g => ?_⟩
  · rw [rest_eq same, cwds]
    exact after
  · rw [files]
    by_cases isF : g = f
    · rw [isF, Function.update_self]
      exact fun _ => noInode
    · rw [Function.update_of_ne isF]
      exact here.closed g
  · rw [files]
    by_cases isF : g = f
    · rw [isF, Function.update_self, mode]
    · rw [Function.update_of_ne isF]

omit root width alive in
theorem openWith_balances {omode : UInt32} {f : FileIx} {fd : Fd} {proc : Proc} {k₁ : Kernel}
    (free : (k.file f).ref = 0) (files : k₁.file = Function.update k.file f { k.file f with ref := 1 })
    (procs : k₁.proc = Function.update k.proc p proc) (dir : proc.dir = (k.proc p).dir)
    (ops : k₁.ops = k.ops ++ [.begin_op])
    (locked : Books sb (k.rest limit watch) (i :: k.cwds) [i] k₁.fs) :
    Meets (openWith sb omode i f fd).run k₁ Awake fun r k' =>
      Opened limit sb watch k omode i (k₁.fs.inode i).type f k' ∧ r = fd.val ∧ k'.proc = k₁.proc := by
  refine .seq_run (run_inode i k₁) (.seq_run rfl (.seq_run rfl ?_))
  -- the file is complete; the call ends with the inode unlocked
  have complete : (setFile (setFile k₁ f ((k₁.file f).typed (k₁.fs.inode i))) f
      (((setFile k₁ f ((k₁.file f).typed (k₁.fs.inode i))).file f).opened omode i)).file =
      Function.update k.file f (openedFile omode i (k₁.fs.inode i) (k.file f)) := by
    rw [setFile_self, setFile_setFile, setFile, files, Function.update_idem, Function.update_self]
    rfl
  have finish : ∀ fs₁, Books sb (k.rest limit watch) (i :: k.cwds) [i] fs₁ →
      (fs₁.inode i).type = (k₁.fs.inode i).type → ∀ k₂ : Kernel, k₂.fs = fs₁ →
      k₂.file = Function.update k.file f (openedFile omode i (k₁.fs.inode i) (k.file f)) →
      k₂.proc = k₁.proc → k₂.ops = k₁.ops →
      Meets (onFs₁ (iunlock i) >>= fun _ => end_op >>= fun _ => (pure (fd.val : Int) : Sys Int)).run
        k₂ Awake fun r k' => Opened limit sb watch k omode i (k₁.fs.inode i).type f k' ∧ r = fd.val ∧
          k'.proc = k₁.proc := by
    rintro fs₁ last sameType k₂ rfl files' procs' ops'
    refine onFs₁_seq last.iunlock fun _ fs₂ after => .seq_run rfl (.done ⟨?_, rfl, procs'⟩)
    refine opened_balances here free rfl files' (procs'.trans procs) dir ?_ after.1 ?_
    · show k₂.ops ++ [.end_op] = _
      rw [ops', ops, List.append_assoc]
      rfl
    · rw [(Keeps.same after.2.1 (after.2.2 i)).2, last.diskType_eq List.mem_cons_self, sameType]
  by_cases cuts : hasFlag omode O_TRUNC = true ∧ (k₁.fs.inode i).type = T_FILE
  · rw [if_pos cuts]
    exact onFs₁_seq (locked.itrunc List.mem_cons_self) fun _ fs₁ cut =>
      finish fs₁ cut.1 cut.2.1 _ rfl complete rfl rfl
  · rw [if_neg cuts]
    exact finish _ locked rfl _ rfl complete rfl rfl

/-- What `sys_open` leaves once the inode is found: all as it was, or a file for a descriptor. -/
def Settled (limit : Nat) (sb : Superblock) (watch : FileIx → Prop) (k : Kernel) (p : Pid) (omode : UInt32)
    (i : Ip) (type : Int16) (r : Int) (k' : Kernel) : Prop :=
  (r = -1 ∧ Balances limit sb watch k k') ∨ ∃ (f : FileIx) (fd : Fd), r = fd.val ∧
    (k'.proc p).ofile fd = some f ∧ Opened limit sb watch k omode i type f k'

omit root width here alive in
theorem openFail_fails (i : Ip) (k : Kernel) : Ensures (openFail sb i).run k fun r _ => r = -1 :=
  .seq (fun _ _ _ => trivial) fun _ _ _ => .seq (fun _ _ _ => trivial) fun _ _ _ => .done rfl

omit root width alive in
theorem openFail_settles {omode : UInt32} {type : Int16}
    (locked : Books sb (k.rest limit watch) (i :: k.cwds) [i] fs) :
    Meets (openFail sb i).run (k.during fs) Awake (Settled limit sb watch k p omode i type) :=
  ((openFail_balances here locked).also (openFail_fails i _)).mono fun _ _ both =>
    Or.inl ⟨both.2, both.1⟩

omit root width alive in
theorem openFile_settles (omode : UInt32)
    (locked : Books sb (k.rest limit watch) (i :: k.cwds) [i] fs) :
    Meets (openFile sb p omode i).run (k.during fs) Awake
      (Settled limit sb watch k p omode i (fs.inode i).type) := by
  rcases filealloc_ends (k.during fs) with ⟨run, -⟩ | ⟨f, free, run⟩
  · exact .seq_run run (openFail_settles here locked)
  · have unused : (k.file f).ref < 1 := Int.lt_of_le_of_lt (le_of_eq free) Int.one_pos
    refine .seq_run run ?_
    rcases fdalloc_ends (setFile (k.during fs) f { k.file f with ref := 1 }) p f with
      ⟨run', -⟩ | ⟨fd, -, run'⟩
    · refine .seq_run run' (.seq_run (fileclose_new ?_ ?_) ?_)
      · rw [setFile_self]
      · rw [setFile_self]
        exact here.closed f unused
      · refine onFs_seq locked.iunlockput fun _ fs₁ after => .seq_run rfl (.done (Or.inl ⟨rfl, ?_⟩))
        rw [setFile_setFile]
        exact closed_balances here unused Int.one_pos rfl rfl (by rw [setFile_self])
          rfl (List.append_assoc _ _ _) after.1
    · have last : Meets (openWith sb omode i f fd).run
          (setProc (setFile (k.during fs) f { k.file f with ref := 1 }) p
            { k.proc p with ofile := Function.update (k.proc p).ofile fd (some f) }) Awake fun r k' =>
          Opened limit sb watch k omode i (fs.inode i).type f k' ∧ r = fd.val ∧ k'.proc = _ :=
        openWith_balances here free rfl rfl rfl rfl locked
      refine .seq_run run' (last.mono fun r k' done => Or.inr ⟨f, fd, done.2.1, ?_, done.1⟩)
      rw [done.2.2]
      show (Function.update k.proc p _ p).ofile fd = some f
      rw [Function.update_self]
      exact Function.update_self ..

omit root width alive in
theorem openRest_settles (omode : UInt32)
    (locked : Books sb (k.rest limit watch) (i :: k.cwds) [i] fs) :
    Meets (openRest sb p omode i).run (k.during fs) Awake
      (Settled limit sb watch k p omode i (fs.inode i).type) := by
  refine during_inode ?_
  by_cases device : (fs.inode i).type = T_DEVICE ∧
    ((fs.inode i).major < 0 ∨ NDEV ≤ (fs.inode i).major.toInt)
  · rw [if_pos device]
    exact openFail_settles here locked
  · rw [if_neg device]
    exact openFile_settles here omode locked

theorem sys_open_balances (O_NOFOLLOW omode : UInt32) (locals : Locals) (path : Option (List UInt8)) :
    Meets (sys_open sb O_NOFOLLOW p locals omode path).run k Awake fun _ k' =>
      Balances limit sb watch k k' ∨ ∃ i type f, Opened limit sb watch k omode i type f k' := by
  cases path with
  | none => exact .done (Or.inl ⟨here, Or.inl rfl, fun _ => rfl⟩)
  | some path =>
    refine during_begin ?_
    refine .seq (openStart_balances root width here alive locals omode path) fun r k₁ begun => ?_
    rcases begun with ⟨rfl, failed⟩ | ⟨i, fs, rfl, rfl, locked⟩
    · exact .done (Or.inl failed)
    · refine during_cwd ?_
      refine .seq (follow_balances root here (cwd_mem alive) locked) fun r k₂ followed => ?_
      cases r with
      | none =>
        rcases followed with ⟨-, failed⟩ | ⟨j, fs', isSome, -⟩
        · exact .done (Or.inl failed)
        · cases isSome
      | some result =>
        obtain ⟨j, retry⟩ := result
        rcases followed with ⟨isNone, -⟩ | ⟨j', fs', isSome, rfl, locked'⟩
        · cases isNone
        · cases isSome
          dsimp only
          by_cases spent : 10 ≤ retry
          · rw [if_pos spent]
            exact (here.puts locked').mono fun _ _ => Or.inl
          · rw [if_neg spent]
            refine Meets.mono (openRest_settles here omode locked') fun _ k' result => ?_
            rcases result with ⟨-, balances⟩ | ⟨f, fd, -, -, opened⟩
            · exact Or.inl balances
            · exact Or.inr ⟨j, _, f, opened⟩

end Calls

end Csc3150.Namespace
