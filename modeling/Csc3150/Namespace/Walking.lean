/-
**Looking up names and walking paths.**

`dirlookup`, `dirlink` and `namex` between two descriptions `At` of the file system. What a path leads to
is a function of the nodes alone: `resolve` follows its components, and `resolveParent` stops one level
early.

* `At.dirlookup_absent`, `At.dirlookup_found`, `At.dirlink_new` — one directory;
* `At.namex` — `namex` leads where the components of the path do, and leaves the disk and every node as
  they are.
-/

import Csc3150.Namespace.Directory

namespace Csc3150.Namespace

open ByteBuffer FileSystem Outcome Program Search
open Program.Script (atomic)

/-! ### Following components -/

/-- The inode of a name in a directory. -/
def child (node : Nat → Option Node) (n : Nat) (c : List UInt8) : Option Nat :=
  (node n).bind fun x => if x.type = T_DIR then (lookup x.bytes c).map Prod.fst else none

/-- The inode has an entry in a directory. -/
def Entered (node : Nat → Option Node) (n : Nat) : Prop :=
  ∃ d x k c, node d = some x ∧ x.type = T_DIR ∧ entry x.bytes k = some (c, n)

/-- The inode that the components of a path lead to. -/
def resolve (node : Nat → Option Node) (n : Nat) : List (List UInt8) → Option Nat
  | [] => some n
  | c :: rest => (child node n c).bind fun m => resolve node m rest

/-- The directory that all components but the last lead to, and the last one. -/
def resolveParent (node : Nat → Option Node) (n : Nat) :
    List (List UInt8) → Option (Nat × List UInt8)
  | [] => none
  | [c] => (node n).bind fun x => if x.type = T_DIR then some (n, c) else none
  | c :: c' :: rest => (child node n c).bind fun m => resolveParent node m (c' :: rest)

theorem child_eq {node : Nat → Option Node} {n : Nat} {x : Node} (isNode : node n = some x)
    (isDir : x.type = T_DIR) (c : List UInt8) : child node n c = (lookup x.bytes c).map Prod.fst := by
  rw [child, isNode, Option.bind_some, if_pos isDir]

theorem child_of_file {node : Nat → Option Node} {n : Nat} {x : Node} (isNode : node n = some x)
    (file : x.type ≠ T_DIR) (c : List UInt8) : child node n c = none := by
  rw [child, isNode, Option.bind_some, if_neg file]

/-- Where a walk has led to: an inode, or a directory and the last component. -/
def Reached (node : Nat → Option Node) (parent : Bool) (n : Nat) (path : List UInt8) (r : Option Nat)
    (c : List UInt8) : Prop :=
  if parent then resolveParent node n (components path) = r.map (·, c)
  else resolve node n (components path) = r

section Reached

variable {node : Nat → Option Node} {parent : Bool} {n : Nat} {path rest c c' : List UInt8}
  {r : Option Nat} {x : Node}

/-- A step of a walk that goes on. -/
theorem reached_step (split : components path = c :: components rest)
    (more : parent = true → components rest ≠ []) :
    Reached node parent n path r c' ↔
      (child node n c).elim (r = none) fun m => Reached node parent m rest r c' := by
  unfold Reached
  by_cases isParent : parent = true
  · obtain ⟨d, tail, isCons⟩ := List.exists_cons_of_ne_nil (more isParent)
    rw [if_pos isParent, split, isCons, resolveParent]
    cases child node n c with
    | none => exact eq_comm.trans Option.map_eq_none_iff
    | some m => rw [Option.bind_some, Option.elim_some, if_pos isParent]
  · rw [if_neg isParent, split, resolve]
    cases child node n c with
    | none => exact eq_comm
    | some m => rw [Option.bind_some, Option.elim_some, if_neg isParent]

/-- A walk does not lead through a file. -/
theorem reached_file (split : components path = c :: components rest) (isNode : node n = some x)
    (file : x.type ≠ T_DIR) : Reached node parent n path none c' := by
  have none := child_of_file isNode file c
  by_cases last : parent = true ∧ components rest = []
  · rw [Reached, if_pos last.1, split, last.2, resolveParent, isNode, Option.bind_some, if_neg file]
    rfl
  · refine (reached_step split fun isParent => ?_).mpr ?_
    · exact fun empty => last ⟨isParent, empty⟩
    · rw [none]
      rfl

end Reached

/-- All entries of the table, but at most one, are in use. -/
def NearlyFull (uses : Ip → Int) (held : List Ip) : Prop :=
  ∃ i, ∀ m, m ≠ i → uses m + held.count m ≠ 0

/-- The entry that `dirlink` makes. -/
def newDirent (nm : Name) (n : Nat) : Dirent := { inum := n, name := strncpy (fun _ => 0) nm DIRSIZ }

/-- The bytes of a directory with a new entry. -/
def addEntry (bytes : List UInt8) (nm : Name) (n : Nat) : List UInt8 :=
  overwrite bytes (direntSize * freeSlot bytes) (newDirent nm n).toBytes

theorem entry_addEntry {bytes : List UInt8} {nm : Name} {n : Nat}
    (whole : bytes.length % direntSize = 0) (positive : 0 < n) (fits : n < 2 ^ 16) :
    entry (addEntry bytes nm n) = Function.update (entry bytes) (freeSlot bytes) (some (key nm, n)) := by
  have linked : entry (overwrite bytes _ (newDirent nm n).toBytes) = _ :=
    entry_link whole (freeSlot_le bytes) positive fits
  rw [addEntry, linked]
  show Function.update (entry bytes) (freeSlot bytes) (some (key (strncpy _ nm DIRSIZ), n)) = _
  rw [strncpy_key]

/-- A directory with a new entry. -/
theorem dirOk_link {sb : Superblock} {d n : Nat} {bytes : List UInt8} {nm : Name}
    (ok : DirOk sb d bytes) (positive : 0 < n) (inside : n < sb.ninodes) (width : sb.ninodes ≤ 2 ^ 16)
    (apart : key nm ≠ key dot → key nm ≠ key dotdot → n ≠ d) :
    DirOk sb d (addEntry bytes nm n) := by
  have start := freeSlot_le bytes
  have entries : entry (addEntry bytes nm n) = _ := entry_addEntry ok.whole positive (by omega)
  have cases : ∀ {k c m}, entry (addEntry bytes nm n) k = some (c, m) →
      (c = key nm ∧ m = n) ∨ entry bytes k = some (c, m) := by
    intro k c m here
    rw [entries] at here
    by_cases new : k = freeSlot bytes
    · subst new
      rw [Function.update_self] at here
      cases here
      exact Or.inl ⟨rfl, rfl⟩
    · rw [Function.update_of_ne new] at here
      exact Or.inr here
  refine ⟨(slots_overwrite (newDirent nm n).toBytes_length ok.whole start).1,
    fun here => ?_, fun here notDot notDotdot => ?_⟩
  · rcases cases here with ⟨-, rfl⟩ | old
    · exact inside
    · exact ok.inside old
  · rcases cases here with ⟨rfl, rfl⟩ | old
    · exact apart notDot notDotdot
    · exact ok.apart old notDot notDotdot

/-! ### The other entries of the table -/

section Entries

variable {sb : Superblock} {fs : Fs} {i j : Ip}

theorem writei_entries {src : CopyIn} {off n : UInt32} :
    Ensures (Fs.writei sb i src off n) fs fun _ fs' => ∀ j, j ≠ i → fs'.inode j = fs.inode j := by
  intro r fs' run j different
  obtain ⟨⟨disk, ip, r'⟩, -, stored⟩ := bind_eq_ok.mp run
  cases stored
  exact Fs.put_of_ne _ _ _ _ different

theorem iunlockput_entries :
    Ensures (Namespace.iunlockput sb i).run fs fun _ fs' => ∀ j, j ≠ i → fs'.inode j = fs.inode j := by
  have unlocked : Ensures (iunlock i) fs fun _ fs' => ∀ j, j ≠ i → fs'.inode j = fs.inode j := by
    intro _ middle unlock j different
    obtain ⟨-, -, rfl⟩ := iunlock_ends unlock
    exact Fs.put_of_ne _ _ _ _ different
  rw [run_iunlockput]
  refine unlocked.bind fun _ middle same _ fs' put j different => ?_
  rw [← same j different]
  rw [FileSystem.iput] at put
  dsimp only at put
  split_ifs at put
  · obtain ⟨⟨disk, ip⟩, -, stored⟩ := bind_eq_ok.mp put
    cases stored
    exact Fs.put_of_ne _ _ _ _ different
  · cases put
    exact Fs.put_of_ne _ _ _ _ different

end Entries

namespace At

variable {sb : Superblock} {uses : Ip → Int} {hand : Hand} {held locks : List Ip} {loose : List Nat}
  {name : Ip → Nat} {node : Nat → Option Node} {fs : Fs} {i j : Ip} {x : Node} {nm : Name}
  {stops : Halt → Prop} {n k : Nat}

/-! ### References -/

theorem swap (here : At sb uses ⟨i :: j :: held, locks, loose⟩ name node fs) :
    At sb uses ⟨j :: i :: held, locks, loose⟩ name node fs := by
  refine here.loose_subset (fun n member => ?_) (fun n member => Or.inl member) (fun m => ?_)
    fun _ => Iff.rfl
  · obtain ⟨m, inHand, same⟩ := here.loose member
    exact ⟨m, (List.Perm.swap j i held).mem_iff.mp inHand, same⟩
  · exact ((List.Perm.swap j i held).count_eq m).symm

/-- When every inode without links is in use, `iput` frees nothing. -/
theorem iput_linked (here : At sb uses ⟨i :: held, locks, []⟩ name node fs) (free : i ∉ locks) :
    Meets (Namespace.iput sb i).run fs stops fun _ fs' =>
      At sb uses ⟨held, locks, []⟩ name node fs' := by
  have pos := here.ref_pos_of_held (i := i) List.mem_cons_self
  refine (here.iput free).mono fun _ fs' after => ?_
  rw [List.filter_nil] at after
  split_ifs at after with more
  · exact after
  · rwa [reclaim_eq fun x isNode zero => ?_] at after
    rcases here.kept isNode zero with member | ⟨m, used, same⟩
    · cases member
    · have nonneg := here.nonneg i
      obtain rfl := here.name_inj pos (here.ref_pos_of_uses used) same
      omega

theorem iunlockput_linked (here : At sb uses ⟨i :: held, i :: locks, []⟩ name node fs)
    (once : i ∉ locks) : Meets (Namespace.iunlockput sb i).run fs stops fun _ fs' =>
      At sb uses ⟨held, locks, []⟩ name node fs' :=
  .seq (.atomic (here.iunlock once)) fun _ _ unlocked => unlocked.iput_linked once

/-! ### Steps that write nothing -/

section Quiet

theorem iget_quiet {dev inum : Nat} :
    Ensures (FileSystem.iget dev inum) fs fun _ fs' => fs'.disk = fs.disk := by
  intro j fs' run
  rcases iget_ends run with ⟨-, -, -, rfl⟩ | ⟨-, -, rfl⟩
  · rfl
  · rfl

theorem ilock_quiet (here : At sb uses hand name node fs) :
    Ensures (FileSystem.ilock sb i) fs fun _ fs' => fs'.disk = fs.disk := by
  intro _ fs' run
  obtain ⟨-, -, -, rfl⟩ := ilock_ends here.sound.table run
  rfl

theorem iunlock_quiet {i : Ip} : Ensures (FileSystem.iunlock i) fs fun _ fs' => fs'.disk = fs.disk := by
  intro _ fs' run
  obtain ⟨-, -, rfl⟩ := iunlock_ends run
  rfl

/-- `iput` frees nothing when every inode without links is in use. -/
theorem iput_quiet (here : At sb uses ⟨i :: held, locks, []⟩ name node fs) (free : i ∉ locks) :
    Ensures (Namespace.iput sb i).run fs fun _ fs' => fs'.disk = fs.disk := by
  intro _ fs' run
  have pos := here.ref_pos_of_held (i := i) List.mem_cons_self
  have unlocked : (fs.inode i).lock ≠ true := mt (here.locked i).mp free
  rw [run_iput] at run
  obtain ⟨⟨⟩, fs'', run', -, ⟨-, rfl⟩ | ⟨one, valid, zero, -⟩⟩ :=
    iput_spec here.sound pos fun locked => absurd locked unlocked
  · rw [run] at run'
    cases run'
    rfl
  · have cached := here.sound.table.cached pos valid
    have isNode := nodeAt_of_inUse cached.inUse
    rw [here.nodes, ← cached.same, here.named pos] at isNode
    rcases here.kept isNode zero with member | ⟨m, used, same⟩
    · cases member
    · obtain rfl := here.name_inj pos (here.ref_pos_of_uses used) same
      have total := here.refs m
      dsimp only at total
      rw [List.count_cons_self] at total
      omega

theorem iunlockput_quiet (here : At sb uses ⟨i :: held, i :: locks, []⟩ name node fs) (once : i ∉ locks) :
    Ensures (Namespace.iunlockput sb i).run fs fun _ fs' => fs'.disk = fs.disk := by
  have unlock : Meets (FileSystem.iunlock i) fs (fun _ => True) _ :=
    (here.iunlock once).also iunlock_quiet
  exact .seq (.atomic unlock.ends) fun _ fs₁ unlocked _ fs₂ put =>
    (unlocked.1.iput_quiet once _ _ put).trans unlocked.2

end Quiet

/-! ### One directory -/

theorem openDir (here : At sb uses hand name node fs) (lock : i ∈ hand.locks)
    (isNode : node (name i) = some x) (isDir : x.type = T_DIR) : OpenDir sb fs i x.bytes := by
  have isLocked := (here.locked i).mpr lock
  have pos := (here.sound.table.locked isLocked).1
  obtain ⟨shows, bytes⟩ := here.shows lock isNode
  have ok := here.ok isNode
  refine ⟨here.sound.image, pos, here.sound.cached_of_locked isLocked, shows.type.trans isDir, ?_,
    (ok.dir isDir).whole, ok.small⟩
  rw [shows.inum, bytes]

section Directory

variable (isNode : node (name i) = some x) (isDir : x.type = T_DIR)

include isNode isDir

theorem dirlookup_absent (here : At sb uses hand name node fs) (lock : i ∈ hand.locks)
    (absent : lookup x.bytes (key nm) = none) :
    Meets (Namespace.dirlookup sb i nm).run fs stops fun r fs' => r = none ∧ fs' = fs := by
  have run : (Namespace.dirlookup sb i nm).run fs = .ok (none, fs) := by
    rw [run_dirlookup (here.openDir lock isNode isDir), absent]
    rfl
  exact .of_ok run ⟨rfl, rfl⟩

theorem dirlookup_found (here : At sb uses ⟨held, locks, loose⟩ name node fs) (lock : i ∈ locks)
    (found : lookup x.bytes (key nm) = some (n, k))
    (full : (∀ m, (fs.inode m).ref ≠ 0) → stops .igetNoInodes) :
    Meets (Namespace.dirlookup sb i nm).run fs stops fun r fs' => ∃ j name',
      r = some (j, direntSize * k) ∧ name' j = n ∧ (∀ m, 0 < (fs.inode m).ref → name' m = name m) ∧
      At sb uses ⟨j :: held, locks, loose⟩ name' node fs' := by
  have pos := (here.sound.table.locked ((here.locked i).mpr lock)).1
  have isEntry := (lookup_eq_some.mp found).1
  have positive := Nat.pos_of_ne_zero (entry_ne_zero isEntry)
  have inside := ((here.ok isNode).dir isDir).inside isEntry
  have run : (Namespace.dirlookup sb i nm).run fs = _ := run_dirlookup (here.openDir lock isNode isDir)
  rw [found, here.dev pos] at run
  refine .congr run ((here.iget positive inside full).bind fun j fs' => ?_)
  rintro ⟨name', isN, same, after⟩
  exact .pure ⟨j, name', rfl, isN, same, after⟩

theorem dirlookup_quiet (here : At sb uses hand name node fs) (lock : i ∈ hand.locks) :
    Ensures (Namespace.dirlookup sb i nm).run fs fun _ fs' => fs'.disk = fs.disk := by
  intro r fs' run
  rw [run_dirlookup (here.openDir lock isNode isDir)] at run
  cases found : lookup x.bytes (key nm) with
  | none =>
    rw [found] at run
    cases run
    rfl
  | some entry =>
    rw [found] at run
    obtain ⟨j, middle, got, last⟩ := bind_ends.mp run
    cases last
    exact iget_quiet _ _ got

/-- `dirlink` stores an entry with a new name, or fails and leaves the directory as it was. -/
theorem dirlink_new (here : At sb uses ⟨held, locks, loose⟩ name node fs) (lock : i ∈ locks)
    (absent : lookup x.bytes (key nm) = none) (positive : 0 < n) (inside : n < sb.ninodes)
    (width : sb.ninodes ≤ 2 ^ 16)
    (apart : key nm ≠ key dot → key nm ≠ key dotdot → n ≠ name i) :
    Meets (Namespace.dirlink sb i nm n).run fs stops fun r fs' =>
      (∀ j, j ≠ i → fs'.inode j = fs.inode j) ∧
      ((r = 0 ∧ At sb uses ⟨held, locks, loose⟩ name (Function.update node (name i)
        (some { x with bytes := addEntry x.bytes nm n })) fs') ∨
      (r = -1 ∧ At sb uses ⟨held, locks, loose⟩ name node fs')) := by
  have dir := here.openDir lock isNode isDir
  have ok := here.ok isNode
  have start := freeSlot_le x.bytes
  have below : direntSize * freeSlot x.bytes ≤ MAXFILE * BSIZE := by
    have small := ok.small
    unfold slots direntSize at *
    omega
  have offset := entryOffset below
  have sixteen : (16 : UInt32).toNat = direntSize := rfl
  have notFound : (Namespace.dirlookup sb i nm).run fs = .ok (none, fs) := by
    rw [run_dirlookup dir, absent]
    rfl
  have fits : (UInt32.ofNat (direntSize * freeSlot x.bytes)).toNat % BSIZE + (16 : UInt32).toNat ≤
      BSIZE := by
    rw [offset, sixteen]
    unfold direntSize BSIZE
    omega
  have stored : DirOk sb (name i) (overwrite x.bytes
      (UInt32.ofNat (direntSize * freeSlot x.bytes)).toNat (newDirent nm n).toBytes) := by
    rw [offset]
    exact dirOk_link (ok.dir isDir) positive inside width apart
  have length : (16 : UInt32).toNat = (newDirent nm n).toBytes.length :=
    (newDirent nm n).toBytes_length.symm
  have write : Meets _ fs stops _ :=
    here.writei lock isNode length fun _ => ⟨by decide, fits, stored⟩
  refine .seq_run notFound (.seq_run rfl (.seq_run (run_empty dir) (.seq (.atomic
    (write.also writei_entries)) fun r fs' wrote => ?_)))
  obtain ⟨wrote, entries⟩ := wrote
  rw [offset] at wrote
  rcases wrote with ⟨-, rfl, rfl⟩ | ⟨-, tot, rfl, -, once, after⟩
  · rw [if_pos (by decide)]
    exact .done ⟨entries, Or.inr ⟨rfl, here⟩⟩
  · obtain ⟨-, -, addr, -, all⟩ := once (by decide) (by rwa [offset] at fits)
    rw [Dirent.toBytes_length] at all
    by_cases missing : addr = 0
    · rw [if_pos missing] at all
      subst all
      rw [List.take_zero, overwrite_nil, Function.update_eq_self_iff.mpr isNode.symm] at after
      rw [if_pos (by decide)]
      exact .done ⟨entries, Or.inr ⟨rfl, after⟩⟩
    · rw [if_neg missing] at all
      subst all
      rw [List.take_of_length_le (le_of_eq (Dirent.toBytes_length _))] at after
      rw [if_neg (not_not.mpr rfl)]
      exact .done ⟨entries, Or.inl ⟨rfl, after⟩⟩

end Directory

/-! ### Paths -/

section Paths

variable {parent : Bool} {path : List UInt8}

theorem namexEnd (here : At sb uses ⟨i :: held, [], []⟩ name node fs) (atEnd : components path = []) :
    Meets (Namespace.namexEnd sb parent i nm).run fs stops fun r fs' =>
      Reached node parent (name i) path (r.1.map name) (key r.2) ∧ fs'.disk = fs.disk ∧
      At sb uses ⟨r.1.toList ++ held, [], []⟩ name node fs' := by
  rw [Namespace.namexEnd]
  by_cases isParent : parent = true
  · rw [if_pos isParent]
    refine .seq ((here.iput_linked List.not_mem_nil).also (here.iput_quiet List.not_mem_nil))
      fun _ fs' after => .done ⟨?_, after.2, after.1⟩
    rw [Reached, if_pos isParent, atEnd]
    rfl
  · rw [if_neg isParent]
    refine .done ⟨?_, rfl, here⟩
    rw [Reached, if_neg isParent, atEnd]
    rfl

/-- The loop of `namex`. -/
theorem namexFrom (full : NearlyFull uses held → stops .igetNoInodes)
    (untyped : ∀ n, Entered node n → node n = none → stops .ilockNoType) (fuel : Nat) :
    ∀ {path nm i name fs}, path.length ≤ fuel → (node (name i) = none → stops .ilockNoType) →
    At sb uses ⟨i :: held, [], []⟩ name node fs →
    Meets (Namespace.namexFrom sb parent fuel path i nm).run fs stops fun r fs' => ∃ name',
      (∀ m, 0 < uses m ∨ m ∈ held → name' m = name m) ∧
      Reached node parent (name i) path (r.1.map name') (key r.2) ∧ fs'.disk = fs.disk ∧
      At sb uses ⟨r.1.toList ++ held, [], []⟩ name' node fs' := by
  induction fuel with
  | zero =>
    intro path nm i name fs short _ here
    have empty : path = [] := List.length_eq_zero_iff.mp (Nat.le_zero.mp short)
    exact (here.namexEnd (by rw [empty]; rfl)).mono fun r fs' after => ⟨name, fun _ _ => rfl, after⟩
  | succ fuel ih =>
    intro path nm i name fs short typed here
    rw [Namespace.namexFrom]
    cases skipped : skipelem path nm with
    | none =>
      exact (here.namexEnd (skipelem_eq_none.mp skipped)).mono fun r fs' after =>
        ⟨name, fun _ _ => rfl, after⟩
    | some next =>
      obtain ⟨rest, nm'⟩ := next
      obtain ⟨split, shorter, last⟩ := skipelem_eq_some skipped
      have pos := here.ref_pos_of_held (i := i) List.mem_cons_self
      dsimp only
      refine .seq (.atomic ((here.ilock pos List.not_mem_nil typed).also here.ilock_quiet))
        fun _ fs₁ locked => ?_
      obtain ⟨⟨-, locked⟩, quiet⟩ := locked
      rw [← quiet]
      obtain ⟨x, isNode, shows, -⟩ := locked.exists_node List.mem_cons_self
      refine .seq_run rfl ?_
      have type : (fs₁.inode i).type = x.type := shows.type
      by_cases isDir : x.type = T_DIR
      · rw [if_neg (by rw [type]; exact not_not.mpr isDir)]
        by_cases stop : parent = true ∧ rest.headD 0 = 0
        · rw [if_pos stop]
          refine .seq (.atomic ((locked.iunlock List.not_mem_nil).also iunlock_quiet))
            fun _ fs₂ unlocked => ?_
          refine .done ⟨name, fun _ _ => rfl, ?_, unlocked.2, unlocked.1⟩
          rw [Reached, if_pos stop.1, split, last.mp stop.2, resolveParent, isNode,
            Option.bind_some, if_pos isDir]
          rfl
        · rw [if_neg stop]
          have more : parent = true → components rest ≠ [] := fun isParent empty =>
            stop ⟨isParent, last.mpr empty⟩
          cases found : lookup x.bytes (key nm') with
          | none =>
            refine .seq (locked.dirlookup_absent isNode isDir List.mem_cons_self found)
              fun r fs₂ both => ?_
            obtain ⟨rfl, rfl⟩ := both
            refine .seq ((locked.iunlockput_linked List.not_mem_nil).also
              (locked.iunlockput_quiet List.not_mem_nil)) fun _ fs₃ after => ?_
            refine .done ⟨name, fun _ _ => rfl, (reached_step split more).mpr ?_, after.2, after.1⟩
            rw [child_eq isNode isDir, found]
            rfl
          | some entry =>
            obtain ⟨n, k⟩ := entry
            have nearly : (∀ m, (fs₁.inode m).ref ≠ 0) → NearlyFull uses held := by
              refine fun inUse => ⟨i, fun m different => ?_⟩
              have here := inUse m
              rwa [locked.refs, List.count_cons_of_ne different.symm] at here
            refine .seq ((locked.dirlookup_found isNode isDir List.mem_cons_self found
              fun inUse => full (nearly inUse)).also
                (locked.dirlookup_quiet isNode isDir List.mem_cons_self)) fun r fs₂ got => ?_
            obtain ⟨⟨j, name', rfl, isN, same, after⟩, quiet₂⟩ := got
            have frame : ∀ m, 0 < uses m ∨ m ∈ held → name' m = name m := fun m inUse =>
              same m (inUse.elim locked.ref_pos_of_uses fun member =>
                locked.ref_pos_of_held (List.mem_cons_of_mem _ member))
            refine .seq ((after.swap.iunlockput_linked List.not_mem_nil).also
              (after.swap.iunlockput_quiet List.not_mem_nil)) fun _ fs₃ dropped => ?_
            obtain ⟨dropped, quiet₃⟩ := dropped
            have next : node (name' j) = none → stops .ilockNoType := by
              rw [isN]
              exact untyped n ⟨_, x, k, _, isNode, isDir, (lookup_eq_some.mp found).1⟩
            refine (ih (by omega) next dropped).mono fun r fs₄ walked => ?_
            obtain ⟨name'', frame', reached, quiet₄, finally_⟩ := walked
            refine ⟨name'', fun m inUse => (frame' m inUse).trans (frame m inUse),
              (reached_step split more).mpr ?_, quiet₄.trans (quiet₃.trans quiet₂), finally_⟩
            rw [child_eq isNode isDir, found]
            rwa [isN] at reached
      · rw [if_pos (by rw [type]; exact isDir)]
        refine .seq ((locked.iunlockput_linked List.not_mem_nil).also
          (locked.iunlockput_quiet List.not_mem_nil)) fun _ fs₂ after => ?_
        exact .done ⟨name, fun _ _ => rfl, reached_file split isNode isDir, after.2, after.1⟩

/-- Where a path starts: the root, or the current directory. -/
def origin (name : Ip → Nat) (cwd : Ip) (path : List UInt8) : Nat :=
  if path.headD 0 = slash then ROOTINO else name cwd

/-- `namex` leads where the components of the path do. -/
theorem namex (here : At sb uses ⟨held, [], []⟩ name node fs)
    (full : NearlyFull uses held → stops .igetNoInodes)
    (untyped : ∀ n, n = ROOTINO ∨ Entered node n → node n = none → stops .ilockNoType)
    (root : ROOTINO < sb.ninodes) {cwd : Ip} (used : 0 < uses cwd) :
    Meets (Namespace.namex sb cwd path parent nm).run fs stops fun r fs' => ∃ name',
      (∀ m, 0 < uses m ∨ m ∈ held → name' m = name m) ∧
      Reached node parent (origin name cwd path) path (r.1.map name') (key r.2) ∧
      fs'.disk = fs.disk ∧ At sb uses ⟨r.1.toList ++ held, [], []⟩ name' node fs' := by
  have loop : ∀ {i name' fs'}, name' i = origin name cwd path → fs'.disk = fs.disk →
      (∀ m, 0 < (fs.inode m).ref → name' m = name m) →
      (node (name' i) = none → stops .ilockNoType) → At sb uses ⟨i :: held, [], []⟩ name' node fs' →
      Meets (Namespace.namexFrom sb parent path.length path i nm).run fs' stops fun r fs'' =>
        ∃ name', (∀ m, 0 < uses m ∨ m ∈ held → name' m = name m) ∧
          Reached node parent (origin name cwd path) path (r.1.map name') (key r.2) ∧
          fs''.disk = fs.disk ∧ At sb uses ⟨r.1.toList ++ held, [], []⟩ name' node fs'' := by
    intro i name' fs' isOrigin quiet same typed begun
    refine (begun.namexFrom full (fun n entered => untyped n (Or.inr entered)) path.length le_rfl
      typed).mono fun r fs'' walked => ?_
    obtain ⟨name'', frame, reached, quiet', after⟩ := walked
    rw [isOrigin] at reached
    refine ⟨name'', fun m inUse => (frame m inUse).trans (same m ?_), reached, quiet'.trans quiet, after⟩
    exact inUse.elim here.ref_pos_of_uses here.ref_pos_of_held
  rw [Namespace.namex]
  by_cases absolute : path.headD 0 = slash
  · rw [if_pos absolute]
    have nearly : (∀ m, (fs.inode m).ref ≠ 0) → NearlyFull uses held := fun inUse =>
      ⟨cwd, fun m _ => here.refs m ▸ inUse m⟩
    refine .seq (.atomic ((here.iget (by decide) root fun inUse => full (nearly inUse)).also
      iget_quiet)) fun i fs' got => ?_
    obtain ⟨⟨name', isRoot, same, begun⟩, quiet⟩ := got
    exact loop (isRoot.trans (if_pos absolute).symm) quiet same
      (by rw [isRoot]; exact untyped ROOTINO (Or.inl rfl)) begun
  · rw [if_neg absolute]
    have idup_quiet : Ensures (FileSystem.idup cwd) fs fun _ fs' => fs'.disk = fs.disk := by
      intro _ fs' run
      cases run
      rfl
    refine .seq (.atomic ((here.idup (here.ref_pos_of_uses used)).also idup_quiet)) fun i fs' got => ?_
    obtain ⟨⟨rfl, begun⟩, quiet⟩ := got
    refine loop (if_neg absolute).symm quiet (fun _ _ => rfl) (fun absent => ?_) begun
    exact absurd absent (here.used used)

end Paths

end At

end Csc3150.Namespace
