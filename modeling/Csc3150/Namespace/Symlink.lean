/-
**`sys_symlink` when it fails.**

`create` makes the inode and its entry, and only then does `sys_symlink` store the target. When there is
no block left for the target, the call returns -1, and the link stays.

* `At.writei_fresh` — the first block of a new inode is there if and only if the disk is not full;
* `At.storeTarget` — what the call does once the link is made;
* `TakesLast` — the state before the call in which the entry of the link takes the last free blocks;
* `symlink_traceless` — a failed call leaves no trace exactly when it does not.
-/

import Csc3150.Namespace.Creating

namespace Csc3150.Namespace

open ByteBuffer FileSystem Outcome Program Search
open Program.Script (atomic)

/-! ### Scripts of the file system in a system call -/

section OnFs

variable {α : Type} {k : Kernel} {stops : Halt → Prop} {post : α → Fs → Prop}

theorem run_onFs (x : FsScript α) (k : Kernel) :
    (onFs x).run k = x.run k.fs >>= fun result => .ok (result.1, { k with fs := result.2 }) :=
  Script.run_zoom Kernel.fs (fun fs k => { k with fs := fs }) x (fun _ => rfl) (fun _ _ => rfl)
    (fun _ _ _ => rfl) k

/-- A script of the file system, performed in a system call. -/
theorem meets_onFs {x : FsScript α} (first : Meets x.run k.fs stops post) :
    Meets (onFs x).run k stops fun a k' => post a k'.fs := by
  refine ⟨fun a k' run => ?_, fun error run => ?_⟩
  · rw [run_onFs] at run
    obtain ⟨⟨a', fs'⟩, inner, outer⟩ := bind_eq_ok.mp run
    cases outer
    exact first.ends _ fs' inner
  · rw [run_onFs] at run
    rcases bind_eq_error.mp run with stop | ⟨_, _, rest⟩
    · exact first.halts error stop
    · cases rest

theorem meets_onFs₁ {x : FsProg α} (first : Meets x k.fs stops post) :
    Meets (onFs₁ x).run k stops fun a k' => post a k'.fs :=
  meets_onFs (.atomic first)

end OnFs

/-! ### The target -/

/-- `sys_symlink` once the link is made. -/
def storeTarget (sb : Superblock) (target : List UInt8) (ip : Ip) : Sys Int := do
  let len := target.length + 1
  let r ← onFs₁ (Fs.writei sb ip (.kernel (target ++ [0])) 0 (UInt32.ofNat len))
  if r ≠ len then
    onFs (iunlockput sb ip)
    end_op
    return -1
  else
    onFs₁ (assign ip fun i => { i with size := target.length })
    onFs₁ (Fs.iupdate sb ip)
    onFs (iunlockput sb ip)
    end_op
    return 0

/-- The first block of an inode that has none is a new one. -/
theorem bmap_fresh {sb : Superblock} {disk middle : Disk} {ip ip' : Inode} {addr : Nat}
    (image : Image sb disk) (empty : ip.addrs = fun _ => 0)
    (mapped : bmap sb disk ip 0 = .ok (middle, ip', addr)) : addr = 0 ↔ Full sb disk := by
  have blank : ip.addrs ⟨0, by decide⟩ = 0 := by
    rw [empty]
  rcases balloc_cases image.layout image.owned.metadata with ⟨run, full⟩ | ⟨after, b, run, allocated⟩
  · have first := inodeAddrWith_full blank (disk_balloc run)
    cases mapped.symm.trans ((bmapWith_direct (by decide)).trans first)
    exact iff_of_true rfl full
  · have nonzero := allocated.ne_zero image.layout
    have first := inodeAddrWith_fresh blank (disk_balloc run) nonzero
    cases mapped.symm.trans ((bmapWith_direct (by decide)).trans first)
    refine iff_of_false nonzero fun full => ?_
    have used := full _ allocated.upper
    rw [allocated.free] at used
    cases used

namespace At

variable {sb : Superblock} {uses : Ip → Int} {held locks : List Ip} {loose : List Nat}
  {name : Ip → Nat} {node : Nat → Option Node} {fs : Fs} {i : Ip} {x : Node} {stops : Halt → Prop}
  {data target : List UInt8} {k : Kernel}

/-- A new inode takes up to one block of bytes, unless the disk is full. -/
theorem writei_fresh (here : At sb uses ⟨held, locks, loose⟩ name node fs) (lock : i ∈ locks)
    (isNode : node (name i) = some x) (file : x.type ≠ T_DIR) (blank : x.bytes = [])
    (empty : (fs.inode i).addrs = fun _ => 0) (positive : 0 < data.length)
    (fits : data.length ≤ BSIZE) :
    Meets (Fs.writei sb i (.kernel data) 0 (UInt32.ofNat data.length)) fs stops fun r fs' =>
      ∃ tot : Nat, r = tot ∧ (Full sb fs.disk → tot = 0) ∧ (¬ Full sb fs.disk → tot = data.length) ∧
        At sb uses ⟨held, locks, loose⟩ name
          (Function.update node (name i) (some { x with bytes := data.take tot })) fs' := by
  have len : (UInt32.ofNat data.length).toNat = data.length := by
    rw [UInt32.toNat_ofNat']
    unfold BSIZE at fits
    omega
  refine (here.writei lock isNode len fun isDir => absurd isDir file).mono fun r fs' wrote => ?_
  rcases wrote with ⟨rejects, -, -⟩ | ⟨-, tot, rfl, -, once, after⟩
  · exfalso
    have total : BSIZE ≤ MAXFILE * BSIZE ∧ BSIZE < 2 ^ 32 := by decide
    have zero : (0 : UInt32).toNat = 0 := rfl
    unfold Rejects at rejects
    rw [len, zero, blank, List.length_nil] at rejects
    omega
  · have zero : (0 : UInt32).toNat = 0 := rfl
    obtain ⟨middle, ip, addr, mapped, all⟩ := once (by rw [len]; exact positive)
      (by rw [len, zero, Nat.zero_mod, Nat.zero_add]; exact fits)
    have taken := bmap_fresh here.sound.image empty mapped
    refine ⟨tot, rfl, fun full => ?_, fun room => ?_, ?_⟩
    · rw [all, if_pos (taken.mpr full)]
    · rw [all, if_neg (mt taken.mp room)]
    · rw [blank, zero] at after
      rwa [show overwrite [] 0 (data.take tot) = data.take tot by simp [overwrite]] at after

variable (here : At sb uses ⟨[i], [i], []⟩ name node k.fs) (isNode : node (name i) = some x)
  (file : x.type ≠ T_DIR) (blank : x.bytes = []) (empty : (k.fs.inode i).addrs = fun _ => 0)
  (short : target.length < MAXPATH)

include here isNode file blank empty short

/-- Without a block for the target, the call fails and the new inode stays. -/
theorem storeTarget_full (full : Full sb k.fs.disk) :
    Meets (storeTarget sb target i).run k stops fun r k' =>
      r = -1 ∧ nodeAt sb k'.fs.disk (name i) ≠ none := by
  have length : (target ++ [0]).length = target.length + 1 := List.length_append
  have small : target.length + 1 ≤ BSIZE := le_trans short (by decide)
  have write : Meets (Fs.writei sb i (.kernel (target ++ [0])) 0 _) k.fs stops _ :=
    here.writei_fresh List.mem_cons_self isNode file blank empty
      (by rw [length]; exact Nat.succ_pos _) (by rw [length]; exact small)
  rw [length] at write
  refine .seq (meets_onFs₁ write) fun r k₁ wrote => ?_
  obtain ⟨tot, rfl, onFull, -, after⟩ := wrote
  rw [onFull full, if_pos (by omega)]
  refine .seq (meets_onFs (after.iunlockput_linked List.not_mem_nil)) fun _ k₂ after => ?_
  refine .seq_run rfl (.done ⟨rfl, ?_⟩)
  show nodeAt sb k₂.fs.disk (name i) ≠ none
  rw [after.nodes, Function.update_self]
  exact Option.some_ne_none _

/-- With a block for the target, the call does not fail. -/
theorem storeTarget_room (room : ¬ Full sb k.fs.disk) :
    Meets (storeTarget sb target i).run k (fun _ => True) fun r _ => r = 0 := by
  have length : (target ++ [0]).length = target.length + 1 := List.length_append
  have small : target.length + 1 ≤ BSIZE := le_trans short (by decide)
  have write : Meets (Fs.writei sb i (.kernel (target ++ [0])) 0 _) k.fs (fun _ => True) _ :=
    here.writei_fresh List.mem_cons_self isNode file blank empty
      (by rw [length]; exact Nat.succ_pos _) (by rw [length]; exact small)
  rw [length] at write
  refine .seq (meets_onFs₁ write) fun r k₁ wrote => ?_
  obtain ⟨tot, rfl, -, onRoom, -⟩ := wrote
  rw [onRoom room, if_neg (not_not.mpr rfl)]
  refine .seq .trivial fun _ k₂ _ => .seq .trivial fun _ k₃ _ => .seq .trivial fun _ k₄ _ => ?_
  exact .seq .trivial fun _ k₅ _ => .done rfl

end At

/-! ### The call -/

theorem full_iff {sb : Superblock} {disk : Disk} : Full sb disk ↔ (freeBlocks sb disk).ncard = 0 := by
  rw [Set.ncard_eq_zero (freeBlocks_finite sb disk), Set.eq_empty_iff_forall_notMem]
  refine forall_congr' fun b => ?_
  rw [freeBlocks, Set.mem_ofPred_eq, not_and, Bool.not_eq_false]

/-- The path names a new entry of a directory in which it can be made, and the entry takes the last free
blocks. -/
def TakesLast (sb : Superblock) (fs : Fs) (cwd : Ip) (path : List UInt8) : Prop :=
  ∃ d c x, resolveParent (nodeAt sb fs.disk) (At.origin (fun i => (fs.inode i).inum) cwd path)
      (components path) = some (d, c) ∧
    nodeAt sb fs.disk d = some x ∧ lookup x.bytes c = none ∧ CanLink sb fs.disk d x.bytes ∧
    (entrySlots sb fs.disk d x.bytes).ncard = (freeBlocks sb fs.disk).ncard

section Call

variable {sb : Superblock} {p : Pid} {locals : Locals} {k : Kernel} {uses : Ip → Int}
  {name : Ip → Nat} {node : Nat → Option Node}

theorem sys_symlink_eq (sb : Superblock) (p : Pid) (locals : Locals) (target path : List UInt8) :
    sys_symlink sb p locals (some target) (some path) = (do
      begin_op
      let cwd ← myCwd p
      match ← onFs (create sb cwd path T_SYMLINK 0 0 locals.name) with
      | none =>
        end_op
        return -1
      | some ip => storeTarget sb target ip) := rfl

variable (here : At sb uses ⟨[], [], []⟩ name node k.fs) (root : ROOTINO < sb.ninodes)
  (width : sb.ninodes ≤ 2 ^ 16) (used : 0 < uses (k.proc p).cwd)

include here used in
/-- The condition in terms of the description. -/
theorem takesLast_iff {path : List UInt8} : TakesLast sb k.fs (k.proc p).cwd path ↔
    ∃ d c x, resolveParent node (At.origin name (k.proc p).cwd path) (components path) = some (d, c) ∧
      node d = some x ∧ lookup x.bytes c = none ∧ CanLink sb k.fs.disk d x.bytes ∧
      (entrySlots sb k.fs.disk d x.bytes).ncard = (freeBlocks sb k.fs.disk).ncard := by
  have same : nodeAt sb k.fs.disk = node := funext here.nodes
  have start : At.origin (fun i => (k.fs.inode i).inum) (k.proc p).cwd path =
      At.origin name (k.proc p).cwd path := by
    rw [At.origin, At.origin, here.named (here.ref_pos_of_uses used)]
  rw [TakesLast, same, start]

include here root width used

/-- What `create` leaves for a symbolic link: no trace, or an inode and a disk that is full exactly when the
entry took the last free blocks. -/
theorem create_symlink (path : List UInt8) (nm : Name) :
    Meets (create sb (k.proc p).cwd path T_SYMLINK 0 0 nm).run k.fs (fun _ => True) fun r fs' =>
      (r = none ∧ ¬ TakesLast sb k.fs (k.proc p).cwd path ∧ ∀ n, nodeAt sb fs'.disk n = node n) ∨
      ∃ i name' node', r = some i ∧ (Full sb fs'.disk ↔ TakesLast sb k.fs (k.proc p).cwd path) ∧
        node (name' i) = none ∧ node' (name' i) = some ⟨T_SYMLINK, 0, 0, 1, []⟩ ∧
        ((fs'.inode i).addrs = fun _ => 0) ∧ At sb uses ⟨[i], [i], []⟩ name' node' fs' := by
  have condition : TakesLast sb k.fs (k.proc p).cwd path ↔ _ := takesLast_iff here used
  refine (here.create (fun _ member => absurd member List.not_mem_nil) (by decide) (by decide) root
    width used (True.intro) True.intro).mono fun r fs' made => ?_
  obtain ⟨name', -, ⟨rfl, cannot, after⟩ | file | linked⟩ := made
  · refine Or.inl ⟨rfl, fun takes => ?_, after.nodes⟩
    obtain ⟨d, c, x, leads, isNode, absent, can, -⟩ := condition.mp takes
    exact cannot d c x leads isNode absent can
  · exact absurd file.1 (by decide)
  · obtain ⟨i, d, c, x, bytes, rfl, leads, isNode, absent, can, count, free, empty, after⟩ := linked
    have apart : name' i ≠ d := by
      rintro rfl
      rw [free] at isNode
      cases isNode
    refine Or.inr ⟨i, name', _, rfl, ?_, free, ?_, empty, after⟩
    · rw [full_iff, condition]
      constructor
      · intro none
        exact ⟨d, c, x, leads, isNode, absent, can, by omega⟩
      · rintro ⟨d', c', x', leads', isNode', -, -, all⟩
        rw [leads] at leads'
        cases leads'
        rw [isNode] at isNode'
        cases isNode'
        omega
    · rw [Function.update_of_ne apart, Function.update_self]

/-- **A failed `sys_symlink` leaves no trace**, every inode is what it was and every path leads where it did,
if and only if the entry of the link does not take the last free blocks. -/
theorem symlink_traceless {target path : Option (List UInt8)}
    (short : ∀ bytes ∈ target, bytes.length < MAXPATH) :
    Ensures (sys_symlink sb p locals target path).run k fun r k' =>
      ((r = -1 → (∀ n, nodeAt sb k'.fs.disk n = nodeAt sb k.fs.disk n) ∧
        ∀ n route, resolve (nodeAt sb k'.fs.disk) n (components route) =
          resolve (nodeAt sb k.fs.disk) n (components route)) ↔
      ∀ bytes ∈ target, ∀ route ∈ path, ¬ TakesLast sb k.fs (k.proc p).cwd route) := by
  have kept : ∀ {k' : Kernel}, (∀ n, nodeAt sb k'.fs.disk n = nodeAt sb k.fs.disk n) →
      (∀ n, nodeAt sb k'.fs.disk n = nodeAt sb k.fs.disk n) ∧
        ∀ n route, resolve (nodeAt sb k'.fs.disk) n (components route) =
          resolve (nodeAt sb k.fs.disk) n (components route) :=
    fun same => ⟨same, fun n route => by rw [funext same]⟩
  cases target with
  | none =>
    intro r k' run
    cases run
    exact iff_of_true (fun _ => kept fun _ => rfl) nofun
  | some bytes =>
    cases path with
    | none =>
      intro r k' run
      cases run
      exact iff_of_true (fun _ => kept fun _ => rfl) nofun
    | some route =>
      have only : (∀ bytes' ∈ some bytes, ∀ route' ∈ some route,
          ¬ TakesLast sb k.fs (k.proc p).cwd route') ↔ ¬ TakesLast sb k.fs (k.proc p).cwd route := by
        constructor
        · exact fun all => all bytes rfl route rfl
        · rintro holds _ - _ ⟨rfl⟩
          exact holds
      have created := meets_onFs (k := { k with ops := k.ops ++ [.begin_op] })
        (create_symlink here root width used route locals.name)
      rw [only, sys_symlink_eq]
      suffices whole : Meets _ k (fun _ => True) _ from whole.ends
      refine .seq_run rfl (.seq_run rfl (.seq created fun r k₁ made => ?_))
      obtain ⟨rfl, notLast, same⟩ | ⟨i, name', node', rfl, last, free, isNode, empty, after⟩ := made
      · refine .seq_run rfl (.done (iff_of_true (fun _ => kept fun n => ?_) notLast))
        exact (same n).trans (here.nodes n).symm
      · by_cases full : Full sb k₁.fs.disk
        · refine (after.storeTarget_full isNode (by decide) rfl empty (short bytes rfl) full).mono
            fun r k' failed => iff_of_false (fun traceless => ?_) (not_not.mpr (last.mp full))
          obtain ⟨failed, stays⟩ := failed
          rw [(traceless failed).1, here.nodes] at stays
          exact stays free
        · refine (after.storeTarget_room isNode (by decide) rfl empty (short bytes rfl) full).mono
            fun r k' zero => iff_of_true (fun failed => ?_) (mt last.mpr full)
          rw [zero] at failed
          exact absurd failed (by decide)

end Call

/-! ### A small image -/

/-- Boot block, super block, one block of inodes, the free bit map, and the block of the root directory,
which is the last one. -/
def rootSuperblock : Superblock :=
  { size := 5, nblocks := 1, ninodes := 16, inodestart := 2, bmapstart := 3 }

/-- The entries "." and ".." of the root directory. -/
def rootEntries : List UInt8 :=
  (newDirent dot ROOTINO).toBytes ++ (newDirent dotdot ROOTINO).toBytes

def rootDinode : Dinode :=
  { Dinode.zero with type := T_DIR, nlink := 1, size := 32, addrs := fun k => if k.val = 0 then 4 else 0 }

def rootDisk : Disk :=
  let blocks : Disk := fun b i =>
    if b = 3 ∧ i = 0 then 31 else if b = 4 then rootEntries[i]?.getD 0 else 0
  writeDinode rootSuperblock blocks ROOTINO rootDinode

/-- The kernel after `userinit` on this image. -/
def rootKernel : Kernel where
  fs := (Fs.boot rootDisk).setInode firstIp
    { (Fs.boot rootDisk).inode firstIp with dev := ROOTDEV, inum := ROOTINO, ref := 1 }
  file _ := ⟨.none, 0, false, false, firstIp, 0, 0⟩
  proc p := ⟨p.val = 0, firstIp, fun _ => none⟩
  ops := []

theorem rootSuperblock_wellFormed : rootSuperblock.WellFormed := by
  refine ⟨fun inum inside => ?_, fun b inside => ?_, by decide⟩
  · have small : inum < 16 := inside
    interval_cases inum <;> decide
  · have small : b < 5 := inside
    interval_cases b <;> decide

theorem dinode_rootDisk : dinode rootSuperblock rootDisk ROOTINO = rootDinode :=
  dinode_writeDinode_self _ _ _ ⟨by decide, fun k => by
    show (if k.val = 0 then 4 else 0) < _
    split_ifs <;> decide⟩

theorem inUse_rootDisk {n : Nat} (inUse : InUse rootSuperblock (dinode rootSuperblock rootDisk) n) :
    n = ROOTINO := by
  by_contra other
  refine inUse.2.2 ?_
  rw [rootDisk, dinode_writeDinode_of_ne _ _ _ other]
  have small : n < 16 := inUse.2.1
  interval_cases n <;> rfl

theorem full_rootDisk : Full rootSuperblock rootDisk := by
  intro b inside
  have small : b < 5 := inside
  have bitmap : rootDisk 3 = fun i => if i = 0 then 31 else 0 := by
    rw [rootDisk, writeDinode, logWrite_of_ne _ _ (by decide)]
    funext i
    simp
  have place : BBLOCK b rootSuperblock = 3 := by
    interval_cases b <;> decide
  rw [marked, place, bitmap]
  interval_cases b <;> decide

/-- `addrs[0]` -/
def firstSlot : Slot := .direct ⟨0, by decide⟩

/-- An inode with at most one block. -/
theorem pointer_single {disk : Disk} {addrs : Fin (NDIRECT + 2) → Nat} {b : Nat}
    (single : ∀ k, addrs k = if k.val = 0 then b else 0) (slot : Slot) :
    pointer disk addrs slot = if slot = firstSlot then b else 0 := by
  have root : ∀ slot k, slot.place = .inl k → pointer disk addrs slot =
      if k.val = 0 then b else 0 := fun slot k here => (pointer_root here).trans (single k)
  have child : ∀ slot parent i, slot.place = .inr (parent, i) →
      pointer disk addrs parent = 0 → pointer disk addrs slot = 0 :=
    fun slot parent i here zero => by rw [pointer_child here, zero, FileSystem.entry, if_pos rfl]
  have indirect : pointer disk addrs .indirect = 0 := root .indirect _ rfl
  have doubly : pointer disk addrs .doubly = 0 := root .doubly _ rfl
  have index : ∀ i, pointer disk addrs (.doublyIndex i) = 0 := fun i => child _ _ i rfl doubly
  cases slot with
  | direct i =>
    rw [root (.direct i) _ rfl]
    refine if_congr ?_ rfl rfl
    rw [firstSlot, Slot.direct.injEq, Fin.ext_iff]
    rfl
  | indirect => exact indirect.trans (if_neg (by simp [firstSlot])).symm
  | indirectEntry j => exact (child _ _ j rfl indirect).trans (if_neg (by simp [firstSlot])).symm
  | doubly => exact doubly.trans (if_neg (by decide)).symm
  | doublyIndex i => exact (index i).trans (if_neg (by simp [firstSlot])).symm
  | doublyEntry i j => exact (child _ _ j rfl (index i)).trans (if_neg (by simp [firstSlot])).symm

/-- An image whose only data block is the first of the root directory. -/
theorem blocksExact_single {sb : Superblock} {disk : Disk} (full : Full sb disk)
    (positive : 0 < sb.dataStart) (last : sb.size = sb.dataStart + 1)
    (isRoot : InUse sb (dinode sb disk) ROOTINO)
    (single : ∀ n slot, InUse sb (dinode sb disk) n → pointer disk (dinode sb disk n).addrs slot =
      if n = ROOTINO ∧ slot = firstSlot then sb.dataStart else 0) : BlocksExact sb disk := by
  have only : ∀ n slot, InUse sb (dinode sb disk) n →
      pointer disk (dinode sb disk n).addrs slot ≠ 0 → n = ROOTINO ∧ slot = firstSlot := by
    intro n slot inUse nonzero
    by_contra other
    exact nonzero ((single n slot inUse).trans (if_neg other))
  refine ⟨fun b metadata => full b (by omega), fun n slot inUse nonzero => ?_,
    fun n slot n' slot' inUse inUse' nonzero same => ?_, fun b lower upper => ?_⟩
  · rw [single n slot inUse, if_pos (only n slot inUse nonzero)]
    omega
  · obtain ⟨isRoot, isFirst⟩ := only n slot inUse nonzero
    obtain ⟨isRoot', isFirst'⟩ := only n' slot' inUse' (same ▸ nonzero)
    exact ⟨isRoot'.trans isRoot.symm, isFirst'.trans isFirst.symm⟩
  · refine iff_of_true (full b upper) ⟨ROOTINO, firstSlot, isRoot, by omega, ?_⟩
    rw [single _ _ isRoot, if_pos ⟨rfl, rfl⟩]
    omega

theorem inUse_root : InUse rootSuperblock (dinode rootSuperblock rootDisk) ROOTINO :=
  ⟨by decide, by decide, by rw [dinode_rootDisk]; decide⟩

/-- The blocks of the root directory. -/
theorem pointer_rootDisk (slot : Slot) : pointer rootDisk rootDinode.addrs slot =
    if slot = firstSlot then 4 else 0 := pointer_single (fun _ => rfl) slot

theorem blocksExact_rootDisk : BlocksExact rootSuperblock rootDisk := by
  refine blocksExact_single full_rootDisk (by decide) rfl inUse_root fun n slot inUse => ?_
  rw [inUse_rootDisk inUse, dinode_rootDisk, pointer_rootDisk]
  exact if_congr ⟨fun isFirst => ⟨rfl, isFirst⟩, And.right⟩ rfl rfl

theorem noHoles_rootDisk : NoHoles rootSuperblock rootDisk := by
  intro n inUse bn small below
  rw [inUse_rootDisk inUse, dinode_rootDisk] at below ⊢
  have zero : bn = 0 := by
    have : bn * 1024 < 32 := below
    omega
  rw [zero, pointer_rootDisk]
  decide

def rootNode : Node := ⟨T_DIR, 0, 0, 1, rootEntries⟩

theorem nodeAt_rootDisk (n : Nat) :
    nodeAt rootSuperblock rootDisk n = if n = ROOTINO then some rootNode else none := by
  by_cases root : n = ROOTINO
  · rw [root, if_pos rfl, nodeAt_of_inUse inUse_root, dinode_rootDisk]
    have bytes : content rootSuperblock rootDisk ROOTINO = rootEntries := by
      rw [content, dinode_rootDisk]
      decide +kernel
    rw [bytes]
    rfl
  · rw [if_neg root, nodeAt_eq_none]
    exact fun inUse => root (inUse_rootDisk inUse)

theorem dirOk_rootEntries : DirOk rootSuperblock ROOTINO rootEntries := by
  have cases : ∀ {k c n}, Namespace.entry rootEntries k = some (c, n) →
      n = ROOTINO ∧ (c = key dot ∨ c = key dotdot) := by
    intro k c n isEntry
    have inside : k < 2 := by
      by_contra past
      rw [Namespace.entry, if_neg fun live => past live.1] at isEntry
      cases isEntry
    interval_cases k
    · have first : Namespace.entry rootEntries 0 = some (key dot, ROOTINO) := by decide +kernel
      rw [first] at isEntry
      cases isEntry
      exact ⟨rfl, Or.inl rfl⟩
    · have second : Namespace.entry rootEntries 1 = some (key dotdot, ROOTINO) := by decide +kernel
      rw [second] at isEntry
      cases isEntry
      exact ⟨rfl, Or.inr rfl⟩
  refine ⟨by decide, fun isEntry => ?_, fun isEntry notDot notDotdot => ?_⟩
  · rw [(cases isEntry).1]
    decide
  · rcases (cases isEntry).2 with isDot | isDotdot
    · exact absurd isDot notDot
    · exact absurd isDotdot notDotdot

theorem rootKernel_at : At rootSuperblock (fun i => if i = firstIp then 1 else 0) ⟨[], [], []⟩
    (fun _ => ROOTINO) (nodeAt rootSuperblock rootDisk) rootKernel.fs := by
  have entry : ∀ i : Ip, rootKernel.fs.inode i = if i = firstIp then
      { (Fs.boot rootDisk).inode firstIp with dev := ROOTDEV, inum := ROOTINO, ref := 1 }
      else (Fs.boot rootDisk).inode firstIp := by
    intro i
    by_cases first : i = firstIp
    · rw [if_pos first, first]
      exact Fs.setInode_self _ _ _
    · rw [if_neg first]
      exact Fs.put_of_ne _ _ _ _ first
  have isNode : nodeAt rootSuperblock rootDisk ROOTINO = some rootNode := by
    rw [nodeAt_rootDisk, if_pos rfl]
  have positive : ∀ {i}, 0 < (rootKernel.fs.inode i).ref → i = firstIp := by
    intro i pos
    by_contra other
    rw [entry, if_neg other] at pos
    exact lt_irrefl _ pos
  have number : (rootKernel.fs.inode firstIp).inum = ROOTINO := by
    rw [entry, if_pos rfl]
  have flags : ∀ i : Ip, (rootKernel.fs.inode i).lock = false ∧ (rootKernel.fs.inode i).valid = false := by
    intro i
    rw [entry]
    split_ifs <;> exact ⟨rfl, rfl⟩
  have refs : ∀ i : Ip, (rootKernel.fs.inode i).ref = if i = firstIp then 1 else 0 := by
    intro i
    rw [entry]
    split_ifs <;> rfl
  have linked : ∀ {n x}, nodeAt rootSuperblock rootDisk n = some x → x = rootNode ∧ n = ROOTINO := by
    intro n x here
    rw [nodeAt_rootDisk] at here
    split_ifs at here with root
    cases here
    exact ⟨rfl, root⟩
  refine ⟨⟨⟨rootSuperblock_wellFormed, blocksExact_iff.mp blocksExact_rootDisk, noHoles_rootDisk⟩,
    ⟨fun i => ?_, fun {i} pos => ?_, fun {i j} pos pos' _ => ?_, fun {i} _ valid => ?_,
      fun {i} lock => ?_⟩⟩, fun _ => rfl, fun {n x} here => ?_, fun i => ?_, fun i => ?_, fun i => ?_,
    fun {i} pos => ?_, fun {i} used => ?_, fun {n x} here zero => ?_,
    fun member => absurd member List.not_mem_nil, fun {i x} _ here zero => ?_⟩
  · rw [refs]
    split_ifs <;> decide
  · rw [entry, if_pos (positive pos)]
    decide
  · rw [positive pos, positive pos']
  · rw [(flags i).2] at valid
    cases valid
  · rw [(flags i).1] at lock
    cases lock
  · obtain ⟨rfl, rfl⟩ := linked here
    exact ⟨by decide, by decide, fun _ => dirOk_rootEntries⟩
  · show (0 : Int) ≤ if i = firstIp then 1 else 0
    split_ifs <;> decide
  · rw [refs, List.count_nil]
    exact (add_zero _).symm
  · rw [(flags i).1]
    exact iff_of_false Bool.false_ne_true List.not_mem_nil
  · rw [positive pos, number]
  · rw [isNode]
    exact Option.some_ne_none _
  · obtain ⟨rfl, -⟩ := linked here
    exact absurd zero (by decide)
  · obtain ⟨rfl, -⟩ := linked here
    exact absurd zero (by decide)

/-- A link cannot be made where there is a file: the call fails, and leaves no trace. -/
theorem symlink_traceless_small : ∃ k',
    (sys_symlink rootSuperblock ⟨0, by decide⟩ ⟨fun _ => 0, []⟩ (some [98]) (some [46])).run
      rootKernel = .ok (-1, k') ∧
    (∀ n, nodeAt rootSuperblock k'.fs.disk n = nodeAt rootSuperblock rootKernel.fs.disk n) ∧
    ∀ n route, resolve (nodeAt rootSuperblock k'.fs.disk) n (components route) =
      resolve (nodeAt rootSuperblock rootKernel.fs.disk) n (components route) := by
  have evaluated : ((sys_symlink rootSuperblock ⟨0, by decide⟩ ⟨fun _ => 0, []⟩ (some [98])
      (some [46])).run rootKernel).toOption.any (fun result => decide (result.1 = -1)) = true := by
    decide +kernel
  have used : (0 : Int) < if firstIp = firstIp then 1 else 0 := by decide
  have exact : Ensures (sys_symlink rootSuperblock ⟨0, by decide⟩ ⟨fun _ => 0, []⟩ (some [98])
      (some [46])).run rootKernel _ :=
    symlink_traceless rootKernel_at (by decide) (by decide) used fun bytes isTarget => by
      cases isTarget
      decide
  cases ran : (sys_symlink rootSuperblock ⟨0, by decide⟩ ⟨fun _ => 0, []⟩ (some [98])
    (some [46])).run rootKernel with
  | error error =>
    rw [ran] at evaluated
    cases evaluated
  | ok result =>
    obtain ⟨r, k'⟩ := result
    rw [ran] at evaluated
    obtain rfl : r = -1 := of_decide_eq_true evaluated
    refine ⟨k', rfl, (exact _ _ ran).mpr ?_ rfl⟩
    rintro _ - _ ⟨rfl⟩ takes
    obtain ⟨d, c, x, leads, isNode, absent, -⟩ := (takesLast_iff rootKernel_at used).mp takes
    have isRoot : nodeAt rootSuperblock rootDisk ROOTINO = some rootNode := by
      rw [nodeAt_rootDisk, if_pos rfl]
    have here : resolveParent (nodeAt rootSuperblock rootDisk) ROOTINO (components [46]) =
        some (ROOTINO, key dot) := by
      rw [show components [46] = [key dot] by decide, resolveParent, isRoot]
      rfl
    have found : (lookup rootEntries (key dot)).isSome = true := by decide +kernel
    cases here.symm.trans leads
    rw [isRoot] at isNode
    cases isNode
    rw [show lookup rootEntries (key dot) = none from absent] at found
    cases found

/-- **The link stays.** On an image without a free block the call fails, and the path, which led nowhere,
leads to the new inode. -/
theorem symlink_leaves_link : (∃ uses name node, 0 < uses (rootKernel.proc ⟨0, by decide⟩).cwd ∧
    At rootSuperblock uses ⟨[], [], []⟩ name node rootKernel.fs) ∧ ∃ k',
    (sys_symlink rootSuperblock ⟨0, by decide⟩ ⟨fun _ => 0, []⟩ (some [98]) (some [97])).run
      rootKernel = .ok (-1, k') ∧
    resolve (nodeAt rootSuperblock rootKernel.fs.disk) ROOTINO (components [97]) = none ∧
    resolve (nodeAt rootSuperblock k'.fs.disk) ROOTINO (components [97]) = some 2 := by
  have evaluated : ((sys_symlink rootSuperblock ⟨0, by decide⟩ ⟨fun _ => 0, []⟩ (some [98])
      (some [97])).run rootKernel).toOption.any (fun result => decide (result.1 = -1) &&
        decide (resolve (nodeAt rootSuperblock result.2.fs.disk) ROOTINO (components [97]) =
          some 2)) = true := by
    decide +kernel
  rw [Option.any_eq_true] at evaluated
  obtain ⟨⟨r, k'⟩, run, holds⟩ := evaluated
  rw [Bool.and_eq_true, decide_eq_true_eq, decide_eq_true_eq] at holds
  obtain ⟨rfl, leads⟩ := holds
  refine ⟨⟨_, _, _, ?_, rootKernel_at⟩, k', ?_, by decide +kernel, leads⟩
  · show (0 : Int) < if firstIp = firstIp then 1 else 0
    decide
  cases ran : (sys_symlink rootSuperblock ⟨0, by decide⟩ ⟨fun _ => 0, []⟩ (some [98])
    (some [97])).run rootKernel with
  | error error =>
    rw [ran] at run
    cases run
  | ok result =>
    rw [ran] at run
    cases run
    rfl

end Csc3150.Namespace
