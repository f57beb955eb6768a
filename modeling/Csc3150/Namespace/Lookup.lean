/-
**Path lookup is a fold over the components of the path.**

* `resolve_eq_foldlM`, `resolveParent_eq` — where a path leads to, as folds;
* `namex_folds` — a walk on a well-formed file system;
* `path_lookup_folds` — `namei` and `nameiparent` end as the folds say, or find the inode table full;
* `full_table_panics` — a table without a free entry.
-/

import Csc3150.Namespace.Symlink

namespace Csc3150.Namespace

open ByteBuffer FileSystem Outcome Program Search

/-! ### Folds -/

section Folds

variable (node : Nat → Option Node)

theorem resolve_eq_foldlM (n : Nat) (cs : List (List UInt8)) :
    resolve node n cs = cs.foldlM (child node) n := by
  induction cs generalizing n with
  | nil => rfl
  | cons c rest ih =>
    rw [resolve, List.foldlM_cons]
    exact congrArg (child node n c).bind (funext ih)

/-- A directory. -/
def IsDirectory (n : Nat) : Prop := ∃ x, node n = some x ∧ x.type = T_DIR

/-- The fold over all components but the last leads to the directory, and the last is the name. -/
theorem resolveParent_eq_some {n d : Nat} {cs : List (List UInt8)} {c : List UInt8} :
    resolveParent node n cs = some (d, c) ↔
      cs.getLast? = some c ∧ cs.dropLast.foldlM (child node) n = some d ∧ IsDirectory node d := by
  induction cs generalizing n with
  | nil => exact iff_of_false (Option.some_ne_none _).symm fun h => (Option.some_ne_none _).symm h.1
  | cons c₀ rest ih =>
    cases rest with
    | nil =>
      rw [resolveParent]
      constructor
      · intro found
        obtain ⟨x, isNode, isDir⟩ := Option.bind_eq_some_iff.mp found
        split_ifs at isDir with dir
        cases isDir
        exact ⟨rfl, rfl, x, isNode, dir⟩
      · intro found
        obtain ⟨last, start, x, isNode, dir⟩ := found
        cases start
        obtain rfl : c₀ = c := Option.some.inj last
        rw [isNode, Option.bind_some, if_pos dir]
    | cons c₁ rest =>
      rw [resolveParent, List.getLast?_cons_cons, List.dropLast_cons_of_ne_nil (List.cons_ne_nil _ _),
        List.foldlM_cons]
      show ((child node n c₀).bind fun m => resolveParent node m (c₁ :: rest)) = some (d, c) ↔
        _ ∧ ((child node n c₀).bind fun m => List.foldlM (child node) m _) = some d ∧ _
      cases child node n c₀ with
      | none =>
        exact iff_of_false (Option.some_ne_none _).symm fun h => (Option.some_ne_none _).symm h.2.1
      | some m =>
        rw [Option.bind_some, Option.bind_some]
        exact ih

end Folds

/-! ### Lookups -/

/-- A file system between calls in which the root is allocated and every entry of a directory stands for
an allocated inode. -/
structure WellFormed (sb : Superblock) (uses : Ip → Int) (name : Ip → Nat) (node : Nat → Option Node)
    (fs : Fs) : Prop where
  idle : At sb uses ⟨[], [], []⟩ name node fs
  inside : ROOTINO < sb.ninodes
  root : node ROOTINO ≠ none
  entered : ∀ n, Entered node n → node n ≠ none

/-- The panic of `iget` in a table with at most one free entry. -/
def TableFull (fs : Fs) (halt : Halt) : Prop :=
  halt = .igetNoInodes ∧ ∃ i, ∀ j, j ≠ i → (fs.inode j).ref ≠ 0

theorem WellFormed.full {sb : Superblock} {uses : Ip → Int} {name : Ip → Nat} {node : Nat → Option Node}
    {fs : Fs} (formed : WellFormed sb uses name node fs) (nearly : NearlyFull uses []) :
    TableFull fs .igetNoInodes := by
  obtain ⟨i, inUse⟩ := nearly
  exact ⟨rfl, i, fun j different => formed.idle.refs j ▸ inUse j different⟩

/-- The references after a lookup: one more to the inode that is returned. -/
def OneMore (fs fs' : Fs) (r : Option Ip) : Prop :=
  (∀ i, (fs'.inode i).ref = (fs.inode i).ref + if r = some i then 1 else 0) ∧
    ∀ i, 0 < (fs.inode i).ref → (fs'.inode i).inum = (fs.inode i).inum

section Lookup

variable {sb : Superblock} {uses : Ip → Int} {name : Ip → Nat} {node : Nat → Option Node} {fs : Fs}
  {cwd : Ip} {path : List UInt8} {nm : Name}

theorem namex_folds (formed : WellFormed sb uses name node fs) (used : 0 < uses cwd) (parent : Bool) :
    Meets (namex sb cwd path parent nm).run fs (TableFull fs) fun r fs' =>
      Reached node parent (At.origin name cwd path) path (r.1.map fun i => (fs'.inode i).inum) (key r.2) ∧
      OneMore fs fs' r.1 ∧ ∀ n, nodeAt sb fs'.disk n = node n := by
  have here := formed.idle
  refine (here.namex formed.full (fun n known absent => ?_) formed.inside used).mono fun r fs' walked => ?_
  · rcases known with rfl | known
    · exact absurd absent formed.root
    · exact absurd absent (formed.entered n known)
  obtain ⟨name', frame, reached, -, after⟩ := walked
  rw [List.append_nil] at after
  have number : r.1.map name' = r.1.map fun i => (fs'.inode i).inum := by
    cases isFound : r.1 with
    | none => rfl
    | some i =>
      have held : i ∈ r.1.toList := isFound ▸ List.mem_singleton_self i
      exact congrArg some (after.named (after.ref_pos_of_held held)).symm
  rw [number] at reached
  refine ⟨reached, ⟨fun i => ?_, fun i pos => ?_⟩, after.nodes⟩
  · rw [after.refs, here.refs, List.count_nil, Nat.cast_zero, add_zero]
    show uses i + (r.1.toList.count i : Int) = _
    cases r.1 with
    | none => rfl
    | some j =>
      rw [Option.toList_some, List.count_singleton]
      by_cases same : j = i
      · rw [if_pos (beq_iff_eq.mpr same), if_pos (congrArg some same), Nat.cast_one]
      · rw [if_neg (mt beq_iff_eq.mp same), if_neg (mt Option.some.inj same), Nat.cast_zero]
  · have inUse : 0 < uses i := by
      rw [here.refs, List.count_nil, Nat.cast_zero, add_zero] at pos
      exact pos
    rw [after.named (after.ref_pos_of_uses inUse), here.named pos, frame i (Or.inl inUse)]

/-- **Path lookup is a fold over the components.** On a well-formed file system, for every current
directory and path, `namei` returns the inode that the fold leads to, or none if it leads nowhere;
`nameiparent` returns the directory that the fold over all components but the last leads to, with the last
component, if there is such a directory. Either call ends with one more reference to the inode it returns
and no other change to the references, or panics in a table with at most one free entry. -/
theorem path_lookup_folds (formed : WellFormed sb uses name node fs) (used : 0 < uses cwd) :
    Meets (namei sb cwd path nm).run fs (TableFull fs) (fun r fs' =>
      r.map (fun i => (fs'.inode i).inum) =
        (components path).foldlM (child node) (At.origin name cwd path) ∧
      OneMore fs fs' r ∧ ∀ n, nodeAt sb fs'.disk n = node n) ∧
    Meets (nameiparent sb cwd path nm).run fs (TableFull fs) fun r fs' =>
      (∀ d c, r.1.map (fun i => ((fs'.inode i).inum, key r.2)) = some (d, c) ↔
        (components path).getLast? = some c ∧ IsDirectory node d ∧
        (components path).dropLast.foldlM (child node) (At.origin name cwd path) = some d) ∧
      OneMore fs fs' r.1 ∧ ∀ n, nodeAt sb fs'.disk n = node n := by
  constructor
  · refine .seq (namex_folds formed used false) fun r fs' walked => .done ⟨?_, walked.2⟩
    rw [← resolve_eq_foldlM]
    exact walked.1.symm
  · refine (namex_folds formed used true).mono fun r fs' walked => ⟨fun d c => ?_, walked.2⟩
    have leads : resolveParent node (At.origin name cwd path) (components path) = _ := walked.1
    rw [Option.map_map] at leads
    rw [and_comm (a := IsDirectory node d), ← resolveParent_eq_some, leads]
    rfl

end Lookup

/-! ### The small image -/

theorem entry_rootEntries {k n : Nat} {c : List UInt8}
    (isEntry : Namespace.entry rootEntries k = some (c, n)) : n = ROOTINO := by
  have inside : k < 2 := by
    by_contra past
    rw [Namespace.entry, if_neg fun live => past live.1] at isEntry
    cases isEntry
  have known : ∀ k, k < 2 → (Namespace.entry rootEntries k).map Prod.snd = some ROOTINO := by
    decide +kernel
  have same := known k inside
  rw [isEntry] at same
  exact Option.some.inj same

theorem rootKernel_wellFormed : WellFormed rootSuperblock (fun i => if i = firstIp then 1 else 0)
    (fun _ => ROOTINO) (nodeAt rootSuperblock rootDisk) rootKernel.fs := by
  have isRoot : nodeAt rootSuperblock rootDisk ROOTINO ≠ none := by
    rw [nodeAt_rootDisk, if_pos rfl]
    exact Option.some_ne_none _
  refine ⟨rootKernel_at, by decide, isRoot, fun n entered => ?_⟩
  obtain ⟨d, x, k, c, isNode, -, isEntry⟩ := entered
  rw [nodeAt_rootDisk] at isNode
  split_ifs at isNode with isRootDir
  cases isNode
  rwa [entry_rootEntries isEntry]

/-- "/." and "a" on the small image. -/
theorem path_lookup_folds_small :
    Meets (namei rootSuperblock firstIp [47, 46] dot).run rootKernel.fs (TableFull rootKernel.fs)
      (fun r fs' => r.map (fun i => (fs'.inode i).inum) = some ROOTINO ∧
        OneMore rootKernel.fs fs' r) ∧
    Meets (nameiparent rootSuperblock firstIp [97] dot).run rootKernel.fs (TableFull rootKernel.fs)
      fun r fs' => r.1.map (fun i => ((fs'.inode i).inum, key r.2)) = some (ROOTINO, [97]) ∧
        OneMore rootKernel.fs fs' r.1 := by
  have used : (0 : Int) < if firstIp = firstIp then 1 else 0 := by decide
  have isNode : nodeAt rootSuperblock rootDisk ROOTINO = some rootNode := by
    rw [nodeAt_rootDisk, if_pos rfl]
  constructor
  · refine (path_lookup_folds rootKernel_wellFormed used).1.mono fun r fs' walked => ⟨?_, walked.2.1⟩
    rw [walked.1]
    show (components [47, 46]).foldlM (child _) ROOTINO = some ROOTINO
    have split : components [47, 46] = [key dot] := by decide +kernel
    have found : lookup rootEntries (key dot) = some (ROOTINO, 0) := by decide +kernel
    rw [split, ← resolve_eq_foldlM, resolve, child_eq isNode rfl]
    show ((lookup rootEntries (key dot)).map Prod.fst).bind _ = _
    rw [found]
    rfl
  · refine (path_lookup_folds rootKernel_wellFormed used).2.mono fun r fs' walked =>
      ⟨(walked.1 _ _).mpr ⟨by decide +kernel, ?_, ?_⟩, walked.2.1⟩
    · exact ⟨rootNode, isNode, rfl⟩
    · have split : (components [97]).dropLast = [] := by decide +kernel
      rw [split]
      rfl

/-! ### Images whose only data block is that of the root directory -/

theorem entry_nil (k : Nat) : Namespace.entry [] k = none :=
  if_neg fun live => absurd live.1 (Nat.not_lt_zero k)

/-- The layout of `rootSuperblock` with four blocks of inodes. -/
def busySuperblock : Superblock :=
  { size := 8, nblocks := 1, ninodes := 64, inodestart := 2, bmapstart := 6 }

/-- The entries of the root directory, and the types and link counts of the other inodes, which are
empty. -/
structure Files where
  entries : List UInt8
  type : Nat → Int16
  nlink : Nat → Int16
  typed : ∀ n, type n ≠ 0
  small : entries.length ≤ BSIZE

namespace Files

variable (files : Files) {m n : Nat}

def dinode (n : Nat) : Dinode :=
  if n = ROOTINO then
    { Dinode.zero with
      type := T_DIR, nlink := 1, size := files.entries.length
      addrs := fun k => if k.val = 0 then 7 else 0 }
  else { Dinode.zero with type := files.type n, nlink := files.nlink n }

/-- The disk with the inodes up to `n` written. -/
def disk : Nat → Disk
  | 0 => fun b i => if b = 6 ∧ i = 0 then 255 else if b = 7 then files.entries[i]?.getD 0 else 0
  | n + 1 => writeDinode busySuperblock (disk n) (n + 1) (files.dinode (n + 1))

def node (n : Nat) : Node :=
  if n = ROOTINO then ⟨T_DIR, 0, 0, 1, files.entries⟩ else ⟨files.type n, 0, 0, files.nlink n, []⟩

/-- The entries of the table stand for the inodes from `first` to `held`. -/
def fs (first held last : Nat) : Fs where
  disk := files.disk last
  inode i := if i.val + first ≤ held then
      { files.dinode (i.val + first) with
        dev := ROOTDEV, inum := i.val + first, ref := 1, lock := false, valid := true }
    else (Fs.boot (files.disk last)).inode i

theorem dinode_fits (n : Nat) : (files.dinode n).Fits := by
  by_cases root : n = ROOTINO
  · rw [dinode, if_pos root]
    refine ⟨lt_of_le_of_lt files.small (by decide), fun k => ?_⟩
    show (if k.val = 0 then 7 else 0) < _
    split_ifs <;> decide
  · rw [dinode, if_neg root]
    exact ⟨Dinode.zero_fits.size_lt, Dinode.zero_fits.addrs_lt⟩

theorem dinode_type (n : Nat) : (files.dinode n).type ≠ 0 := by
  rw [dinode]
  split_ifs
  · exact (by decide : T_DIR ≠ 0)
  · exact files.typed n

theorem dinode_disk (m n : Nat) (positive : 0 < n) :
    FileSystem.dinode busySuperblock (files.disk m) n =
      if n ≤ m then files.dinode n else FileSystem.dinode busySuperblock (files.disk 0) n := by
  induction m with
  | zero => rw [if_neg (by omega)]
  | succ m ih =>
    show FileSystem.dinode _ (writeDinode _ (files.disk m) (m + 1) _) n =
      if n ≤ m + 1 then _ else FileSystem.dinode _ _ n
    by_cases last : n = m + 1
    · rw [last, dinode_writeDinode_self _ _ _ (files.dinode_fits _), if_pos le_rfl]
    · rw [dinode_writeDinode_of_ne _ _ _ last, ih]
      exact if_congr (by omega) rfl rfl

/-- The inodes lie in the blocks from 2 to 5. -/
theorem disk_other {b : Nat} (inside : m < 64) (apart : 6 ≤ b) : files.disk m b = files.disk 0 b := by
  induction m with
  | zero => rfl
  | succ m ih =>
    have place : IBLOCK (m + 1) busySuperblock ≤ 5 := by
      show (m + 1) / 16 + 2 ≤ 5
      omega
    rw [← ih (by omega)]
    exact logWrite_of_ne _ _ (by omega)

section Written

variable (inside : m < 64)

include inside

theorem inUse_disk : InUse busySuperblock (FileSystem.dinode busySuperblock (files.disk m)) n ↔
    0 < n ∧ n ≤ m := by
  constructor
  · intro inUse
    obtain ⟨positive, known, type⟩ := inUse
    refine ⟨positive, ?_⟩
    by_contra past
    rw [files.dinode_disk _ _ positive, if_neg past] at type
    have known : n < 64 := known
    refine type ?_
    interval_cases n <;> rfl
  · intro bounds
    refine ⟨bounds.1, lt_of_le_of_lt bounds.2 inside, ?_⟩
    rw [files.dinode_disk _ _ bounds.1, if_pos bounds.2]
    exact files.dinode_type n

theorem full_disk : Full busySuperblock (files.disk m) := by
  intro b known
  have small : b < 8 := known
  have place : BBLOCK b busySuperblock = 6 := by
    interval_cases b <;> decide
  have bitmap : files.disk 0 6 = fun i => if i = 0 then 255 else 0 := by
    funext i
    show (if 6 = 6 ∧ i = 0 then 255 else if 6 = 7 then files.entries[i]?.getD 0 else 0) = _
    simp
  rw [marked, place, files.disk_other inside le_rfl, bitmap]
  interval_cases b <;> decide

omit inside in
theorem pointer_dinode (disk : Disk) (slot : Slot) :
    pointer disk (files.dinode n).addrs slot = if n = ROOTINO ∧ slot = firstSlot then 7 else 0 := by
  by_cases root : n = ROOTINO
  · rw [dinode, if_pos root, pointer_single (fun _ => rfl)]
    exact if_congr ⟨fun isFirst => ⟨root, isFirst⟩, And.right⟩ rfl rfl
  · have noBlocks : ∀ k, (files.dinode n).addrs k = if k.val = 0 then 0 else 0 := by
      intro k
      rw [dinode, if_neg root, ite_self]
      rfl
    rw [pointer_single noBlocks, ite_self, if_neg fun both => root both.1]

theorem image_disk (positive : 0 < m) : Image busySuperblock (files.disk m) := by
  have dinodes : ∀ n, InUse busySuperblock (FileSystem.dinode busySuperblock (files.disk m)) n →
      FileSystem.dinode busySuperblock (files.disk m) n = files.dinode n := by
    intro n inUse
    have bounds := (files.inUse_disk inside).mp inUse
    rw [files.dinode_disk _ _ bounds.1, if_pos bounds.2]
  refine ⟨⟨fun inum known => ?_, fun b known => ?_, by decide⟩, blocksExact_iff.mp ?_,
    fun n inUse bn small below => ?_⟩
  · have small : inum < 64 := known
    interval_cases inum <;> decide
  · have small : b < 8 := known
    interval_cases b <;> decide
  · refine blocksExact_single (files.full_disk inside) (by decide) rfl
      ((files.inUse_disk inside).mpr ⟨by decide, positive⟩) fun n slot inUse => ?_
    rw [dinodes n inUse, pointer_dinode]
    rfl
  · rw [dinodes n inUse] at below ⊢
    by_cases root : n = ROOTINO
    · rw [dinode, if_pos root] at below
      have short := files.small
      have zero : bn = 0 := by
        have : bn * 1024 < files.entries.length := below
        have : files.entries.length ≤ 1024 := short
        omega
      rw [zero, pointer_dinode, if_pos ⟨root, by decide⟩]
      decide
    · rw [dinode, if_neg root] at below
      exact absurd below (Nat.not_lt_zero _)

theorem nodeAt_disk (n : Nat) : nodeAt busySuperblock (files.disk m) n =
    if 0 < n ∧ n ≤ m then some (files.node n) else none := by
  by_cases bounds : 0 < n ∧ n ≤ m
  · rw [if_pos bounds, nodeAt_of_inUse ((files.inUse_disk inside).mpr bounds), content,
      files.dinode_disk _ _ bounds.1, if_pos bounds.2, node, dinode]
    by_cases root : n = ROOTINO
    · rw [if_pos root, if_pos root]
      have bytes : fileBytes (files.disk m) (fun k => if k.val = 0 then 7 else 0) 0
          files.entries.length = files.entries := by
        refine List.ext_getElem (by rw [fileBytes, List.length_map, List.length_range]) fun k _ below => ?_
        have short : k < 1024 := lt_of_lt_of_le below files.small
        have zero : k / BSIZE = 0 := Nat.div_eq_of_lt short
        have same : k % BSIZE = k := Nat.mod_eq_of_lt short
        have block : pointer (files.disk m) (fun k => if k.val = 0 then 7 else 0) (slotOf 0) = 7 :=
          (pointer_single (fun _ => rfl) _).trans (if_pos (by decide))
        simp only [fileBytes, List.getElem_map, List.getElem_range, zero_add]
        rw [fileByte, zero, same, block, if_neg (by decide), files.disk_other inside (by decide)]
        show (if 7 = 6 ∧ k = 0 then 255 else if 7 = 7 then files.entries[k]?.getD 0 else 0) = _
        rw [if_neg fun both => absurd both.1 (by decide), if_pos rfl, List.getElem?_eq_getElem below]
        rfl
      rw [bytes]
      rfl
    · rw [if_neg root, if_neg root]
      rfl
  · rw [if_neg bounds, nodeAt_eq_none]
    exact mt (files.inUse_disk inside).mp bounds

end Written

section Table

variable {first held : Nat} (bound : m < 64) (known : held ≤ m) (one : 1 ≤ first)
  (inside : held < first + NINODE) (positive : 0 < m) (dir : DirOk busySuperblock ROOTINO files.entries)
  (kept : ∀ n, 0 < n → n ≠ ROOTINO → n ≤ m → files.nlink n = 0 → first ≤ n ∧ n ≤ held)

include bound known one inside positive dir kept

/-- A table in which no entry is locked, over the inodes from `first` to `held`. -/
theorem at_fs :
    At busySuperblock (fun i => if i.val + first ≤ held then 1 else 0) ⟨[], [], []⟩ (fun i => i.val + first)
      (nodeAt busySuperblock (files.disk m)) (files.fs first held m) := by
  have isNode : ∀ {n x}, nodeAt busySuperblock (files.disk m) n = some x →
      (0 < n ∧ n ≤ m) ∧ x = files.node n := by
    intro n x isNode
    rw [files.nodeAt_disk bound] at isNode
    split_ifs at isNode with bounds
    exact ⟨bounds, (Option.some.inj isNode).symm⟩
  have used : ∀ {i : Ip}, 0 < ((files.fs first held m).inode i).ref → i.val + first ≤ held := by
    intro i pos
    by_contra past
    have free : (files.fs first held m).inode i = (Fs.boot (files.disk m)).inode i := if_neg past
    rw [free] at pos
    exact lt_irrefl _ pos
  have entry : ∀ {i : Ip}, i.val + first ≤ held → (files.fs first held m).inode i =
      { files.dinode (i.val + first) with
        dev := ROOTDEV, inum := i.val + first, ref := 1, lock := false, valid := true } := by
    intro i live
    exact if_pos live
  have refs : ∀ i : Ip, ((files.fs first held m).inode i).ref = if i.val + first ≤ held then 1 else 0 := by
    intro i
    by_cases live : i.val + first ≤ held
    · rw [entry live, if_pos live]
    · have free : (files.fs first held m).inode i = (Fs.boot (files.disk m)).inode i := if_neg live
      rw [free, if_neg live]
      rfl
  have unlocked : ∀ i : Ip, ((files.fs first held m).inode i).lock = false := by
    intro i
    by_cases live : i.val + first ≤ held
    · rw [entry live]
    · have free : (files.fs first held m).inode i = (Fs.boot (files.disk m)).inode i := if_neg live
      rw [free]
      rfl
  refine ⟨⟨files.image_disk bound positive, ⟨fun i => ?_, fun {i} pos => ?_, fun {i j} pos pos' same => ?_,
      fun {i} pos _ => ?_, fun {i} lock => ?_⟩⟩, fun _ => rfl, fun {n x} here => ?_,
    fun i => ?_, fun i => ?_, fun i => ?_, fun {i} pos => ?_, fun {i} uses => ?_,
    fun {n x} here zero => ?_, fun member => absurd member List.not_mem_nil, fun {i x} pos _ _ => ?_⟩
  · rw [refs]
    split_ifs <;> decide
  · have positive : 0 < i.val + first := by omega
    rw [entry (used pos)]
    exact ⟨rfl, positive, ((used pos).trans known).trans_lt bound⟩
  · rw [entry (used pos), entry (used pos')] at same
    exact Fin.ext (Nat.add_right_cancel same)
  · rw [entry (used pos)]
    have bounds : 0 < i.val + first ∧ i.val + first ≤ m := ⟨by omega, (used pos).trans known⟩
    refine ⟨(files.inUse_disk bound).mpr bounds, ?_⟩
    show files.dinode (i.val + first) = FileSystem.dinode _ (files.disk m) (i.val + first)
    rw [files.dinode_disk _ _ bounds.1, if_pos bounds.2]
  · rw [unlocked] at lock
    cases lock
  · obtain ⟨bounds, rfl⟩ := isNode here
    by_cases root : n = ROOTINO
    · rw [node, if_pos root]
      have short : files.entries.length ≤ 1024 := files.small
      exact ⟨(by decide : T_DIR ≠ 0), le_trans short (by decide), fun _ => root ▸ dir⟩
    · rw [node, if_neg root]
      refine ⟨files.typed n, Nat.zero_le _, fun _ => ⟨rfl, fun {k c m} isEntry => ?_,
        fun {k c m} isEntry => ?_⟩⟩
      · exact absurd ((entry_nil k).symm.trans isEntry).symm (Option.some_ne_none _)
      · exact absurd ((entry_nil k).symm.trans isEntry).symm (Option.some_ne_none _)
  · show (0 : Int) ≤ if i.val + first ≤ held then 1 else 0
    split_ifs <;> decide
  · rw [refs, List.count_nil]
    exact (add_zero _).symm
  · rw [unlocked]
    exact iff_of_false Bool.false_ne_true List.not_mem_nil
  · rw [entry (used pos)]
  · have live : i.val + first ≤ held := by
      by_contra past
      rw [if_neg past] at uses
      exact lt_irrefl _ uses
    rw [files.nodeAt_disk bound, if_pos ⟨by omega, live.trans known⟩]
    exact Option.some_ne_none _
  · obtain ⟨bounds, rfl⟩ := isNode here
    by_cases root : n = ROOTINO
    · rw [node, if_pos root] at zero
      exact absurd zero (by decide : (1 : Int16) ≠ 0)
    · rw [node, if_neg root] at zero
      obtain ⟨lower, upper⟩ := kept n bounds.1 root bounds.2 zero
      refine Or.inr ⟨⟨n - first, by omega⟩, ?_, Nat.sub_add_cancel lower⟩
      show (0 : Int) < if n - first + first ≤ held then 1 else 0
      rw [Nat.sub_add_cancel lower, if_pos upper]
      exact zero_lt_one
  · rw [entry (used pos)]

/-- All names of the root directory lead to inodes of the image. -/
theorem wellFormed_fs
    (names : ∀ {k c n}, Namespace.entry files.entries k = some (c, n) → 0 < n ∧ n ≤ m) :
    WellFormed busySuperblock (fun i => if i.val + first ≤ held then 1 else 0) (fun i => i.val + first)
      (nodeAt busySuperblock (files.disk m)) (files.fs first held m) := by
  have allocated : ∀ n, 0 < n ∧ n ≤ m → nodeAt busySuperblock (files.disk m) n ≠ none := by
    intro n bounds
    rw [files.nodeAt_disk bound, if_pos bounds]
    exact Option.some_ne_none _
  refine ⟨files.at_fs bound known one inside positive dir kept, by decide, allocated _ ⟨by decide, positive⟩,
    fun n entered => allocated n ?_⟩
  obtain ⟨d, x, k, c, isNode, -, isEntry⟩ := entered
  rw [files.nodeAt_disk bound] at isNode
  split_ifs at isNode with bounds
  cases isNode
  rw [node] at isEntry
  split_ifs at isEntry with root
  · exact names isEntry
  · exact absurd ((entry_nil k).symm.trans isEntry).symm (Option.some_ne_none _)

end Table

end Files

/-! ### A table without a free entry -/

/-- The root directory with the name "a", which leads to the inode `last` of this type; the inodes between
are directories that were removed. -/
def busyFiles (type : Int16) (typed : type ≠ 0) (last : Nat) : Files where
  entries := rootEntries ++ (newDirent (literal [97]) last).toBytes
  type n := if n = last then type else T_DIR
  nlink n := if n = last then 1 else 0
  typed n := by
    split_ifs
    · exact typed
    · decide
  small := by
    rw [List.length_append, Dirent.toBytes_length]
    decide

section Busy

variable {type : Int16} {typed : type ≠ 0} {held : Nat} (few : held = 1 ∨ held = 50)

include few

theorem entry_busyFiles {k n : Nat} {c : List UInt8}
    (isEntry : Namespace.entry (busyFiles type typed (held + 1)).entries k = some (c, n)) :
    n = ROOTINO ∧ (c = key dot ∨ c = key dotdot) ∨ n = held + 1 := by
  have three : slots (busyFiles type typed (held + 1)).entries = 3 := by
    rw [slots, busyFiles, List.length_append, Dirent.toBytes_length]
    rfl
  have inside : k < 3 := by
    by_contra past
    rw [Namespace.entry, if_neg fun live => past (three ▸ live.1)] at isEntry
    cases isEntry
  have known : ∀ k, k < 3 → Namespace.entry (busyFiles type typed (held + 1)).entries k =
      some (if k = 0 then (key dot, ROOTINO) else if k = 1 then (key dotdot, ROOTINO)
        else ([97], held + 1)) := by
    rcases few with rfl | rfl <;>
    · show ∀ k, k < 3 → Namespace.entry (rootEntries ++ (newDirent (literal [97]) _).toBytes) k = _
      decide +kernel
  rw [known k inside] at isEntry
  interval_cases k
  · cases isEntry
    exact Or.inl ⟨rfl, Or.inl rfl⟩
  · cases isEntry
    exact Or.inl ⟨rfl, Or.inr rfl⟩
  · cases isEntry
    exact Or.inr rfl

/-- The root directory and the removed directories are in the table, the inode that "a" leads to is not. -/
theorem wellFormed_busyFiles :
    WellFormed busySuperblock (fun i => if i.val + 1 ≤ held then 1 else 0) (fun i => i.val + 1)
      (nodeAt busySuperblock ((busyFiles type typed (held + 1)).disk (held + 1)))
      ((busyFiles type typed (held + 1)).fs 1 held (held + 1)) := by
  have small : held ≤ 50 := by omega
  have whole : (busyFiles type typed (held + 1)).entries.length % direntSize = 0 := by
    rw [busyFiles, List.length_append, Dirent.toBytes_length]
    rfl
  have root : ROOTINO = 1 := rfl
  refine (busyFiles type typed (held + 1)).wellFormed_fs (by omega) (Nat.le_succ _) le_rfl
    (by unfold NINODE; omega) (Nat.succ_pos _)
    ⟨whole, fun isEntry => ?_, fun isEntry notDot notDotdot => ?_⟩
    (fun n positive notRoot upper removed => ?_) fun isEntry => ?_
  · show _ < 64
    rcases entry_busyFiles few isEntry with ⟨isRoot, -⟩ | isLast <;> omega
  · rcases entry_busyFiles few isEntry with ⟨-, isDot | isDotdot⟩ | isLast
    · exact absurd isDot notDot
    · exact absurd isDotdot notDotdot
    · omega
  · have notLast : n ≠ held + 1 := by
      rintro rfl
      have linked : (busyFiles type typed (held + 1)).nlink (held + 1) = 1 := if_pos rfl
      rw [linked] at removed
      exact absurd removed (by decide)
    omega
  · rcases entry_busyFiles few isEntry with ⟨isRoot, -⟩ | isLast <;> omega

/-- The name "a" leads there. -/
theorem lookup_busyFiles :
    lookup (busyFiles type typed (held + 1)).entries [97] = some (held + 1, 2) := by
  rcases few with rfl | rfl <;>
  · show lookup (rootEntries ++ (newDirent (literal [97]) _).toBytes) [97] = _
    decide +kernel

theorem resolve_busyFiles :
    resolve (nodeAt busySuperblock ((busyFiles type typed (held + 1)).disk (held + 1))) ROOTINO
      (components [47, 97]) = some (held + 1) := by
  have split : components [47, 97] = [[97]] := by decide +kernel
  have isRoot : nodeAt busySuperblock ((busyFiles type typed (held + 1)).disk (held + 1)) ROOTINO =
      some ((busyFiles type typed (held + 1)).node ROOTINO) := by
    rw [(busyFiles type typed (held + 1)).nodeAt_disk (by omega),
      if_pos ⟨by decide, Nat.le_add_left 1 held⟩]
  rw [split, resolve, child_eq isRoot rfl]
  show ((lookup (busyFiles type typed (held + 1)).entries [97]).map Prod.fst).bind _ = _
  rw [lookup_busyFiles few]
  rfl

end Busy

/-- Fifty processes, the first in the root directory and the others in directories that were removed. -/
def busyFs : Fs := (busyFiles T_FILE (by decide) 51).fs 1 50 51

/-- **A full table.** The file system is well-formed, "/a" is a file, and a lookup of it panics. -/
theorem full_table_panics :
    WellFormed busySuperblock (fun i => if i.val + 1 ≤ 50 then 1 else 0) (fun i => i.val + 1)
      (nodeAt busySuperblock busyFs.disk) busyFs ∧
    resolve (nodeAt busySuperblock busyFs.disk) ROOTINO (components [47, 97]) = some 51 ∧
    (namei busySuperblock firstIp [47, 97] dot).run busyFs = .error .igetNoInodes :=
  ⟨wellFormed_busyFiles (Or.inr rfl), resolve_busyFiles (Or.inr rfl), rfl⟩

end Csc3150.Namespace
