/-
**A ledger of references and locks.**

A caller of the file system keeps a ledger of the references and the locks it has. What holds at every point
is weaker than a description of the file system (`At`): links may be lost and link counts may wrap, but the
files stay without holes and the directories keep to inodes of the image.

* `Formed` — sizes that fit the block map, and directories with whole entries;
* `Held` — the file system under a ledger, with a lemma for each function that works on an inode;
* `Held.dirlink`, `Held.namex`, `Held.create` — the same for the functions made of them.
-/

import Csc3150.Namespace.Creating

namespace Csc3150.Namespace

open ByteBuffer FileSystem Outcome Program
open Program.Script (atomic)

/-! ### Sizes and directories -/

/-- The bytes of a directory with whole entries, each with the number of an inode of the image. -/
structure WholeDir (sb : Superblock) (bytes : List UInt8) : Prop where
  whole : bytes.length % direntSize = 0
  inside : ∀ {k c n}, entry bytes k = some (c, n) → n < sb.ninodes

/-- No file is larger than the largest file, and directories have whole entries. -/
structure Formed (sb : Superblock) (disk : Disk) : Prop where
  bounded : Bounded sb disk
  dirs : ∀ {n}, InUse sb (dinode sb disk) n → (dinode sb disk n).type = T_DIR →
    WholeDir sb (content sb disk n)

theorem wholeDir_nil (sb : Superblock) : WholeDir sb [] where
  whole := rfl
  inside := fun {k _ _} here => by
    have none : entry [] k = none := if_neg fun live => Nat.not_lt_zero k live.1
    rw [none] at here
    cases here

/-- A directory with a new entry. -/
theorem WholeDir.link {sb : Superblock} {n : Nat} {bytes : List UInt8} {nm : Name}
    (ok : WholeDir sb bytes) (positive : 0 < n) (inside : n < sb.ninodes) (width : sb.ninodes ≤ 2 ^ 16) :
    WholeDir sb (addEntry bytes nm n) := by
  have start := freeSlot_le bytes
  have entries : entry (addEntry bytes nm n) = _ := entry_addEntry ok.whole positive (by omega)
  refine ⟨(slots_overwrite (newDirent nm n).toBytes_length ok.whole start).1, fun {k c m} here => ?_⟩
  rw [entries] at here
  by_cases new : k = freeSlot bytes
  · rw [new, Function.update_self] at here
    cases here
    exact inside
  · rw [Function.update_of_ne new] at here
    exact ok.inside here

/-- A step that touches one inode, seen from that inode. -/
theorem Formed.touches {sb : Superblock} {disk after : Disk} {m : Nat} (formed : Formed sb disk)
    (touches : Touches sb m disk after)
    (own : InUse sb (dinode sb after) m → (dinode sb after m).size ≤ MAXFILE * BSIZE ∧
      ((dinode sb after m).type = T_DIR → WholeDir sb (content sb after m))) : Formed sb after := by
  have others : ∀ {n}, n ≠ m → InUse sb (dinode sb after) n →
      dinode sb after n = dinode sb disk n ∧ InUse sb (dinode sb disk) n := by
    intro n different inUse
    have same := touches.inodes n inUse.2.1 different
    refine ⟨same, ?_⟩
    unfold InUse at inUse
    rwa [same] at inUse
  refine ⟨fun n inUse => ?_, fun {n} inUse isDir => ?_⟩
  · by_cases isM : n = m
    · subst isM
      exact (own inUse).1
    · obtain ⟨same, inUse'⟩ := others isM inUse
      rw [same]
      exact formed.bounded n inUse'
  · by_cases isM : n = m
    · subst isM
      exact (own inUse).2 isDir
    · obtain ⟨same, inUse'⟩ := others isM inUse
      rw [same] at isDir
      rw [touches.content inUse' isM (formed.bounded n inUse')]
      exact formed.dirs inUse' isDir

/-- A write that leaves whole entries, when it is to a directory. -/
def KeepsDir (sb : Superblock) (fs : Fs) (i : Ip) (src : CopyIn) (off n : UInt32) : Prop :=
  (fs.inode i).type = T_DIR → ∀ r fs', Fs.writei sb i src off n fs = .ok (r, fs') →
    WholeDir sb (content sb fs'.disk (fs.inode i).inum)

/-! ### The ledger -/

/-- The file system while its caller has the references `held` and the locks `locks`. -/
structure Held (sb : Superblock) (held locks : List Ip) (fs : Fs) : Prop where
  sound : fs.Sound sb
  formed : Formed sb fs.disk
  refs : ∀ i, (held.count i : Int) ≤ (fs.inode i).ref
  locked : ∀ i, (fs.inode i).lock = true ↔ i ∈ locks
  distinct : locks.Nodup
  paired : ∀ i, i ∈ locks → i ∈ held

namespace Held

variable {sb : Superblock} {held held' locks locks' : List Ip} {fs : Fs} {i dp : Ip} {n : Nat}
  {nm : Name} {type major minor : Int16}

theorem ref_pos (here : Held sb held locks fs) (member : i ∈ held) : 0 < (fs.inode i).ref := by
  have count := List.count_pos_iff.mpr member
  have total := here.refs i
  omega

theorem perm (here : Held sb held locks fs) (same : held.Perm held') (same' : locks.Perm locks') :
    Held sb held' locks' fs where
  sound := here.sound
  formed := here.formed
  refs i := same.count_eq i ▸ here.refs i
  locked i := (here.locked i).trans same'.mem_iff
  distinct := same'.nodup_iff.mp here.distinct
  paired i member := same.mem_iff.mp (here.paired i (same'.mem_iff.mpr member))

/-- A step on one entry of the table, and on the disk. -/
theorem put (here : Held sb held locks fs) {after : Disk} {ip : Inode}
    (sound : (fs.put i after ip).Sound sb) (formed : Formed sb after)
    (ref : (held'.count i : Int) ≤ ip.ref) (counts : ∀ j, j ≠ i → held'.count j = held.count j)
    (lock : ip.lock = true ↔ i ∈ locks') (others : ∀ j, j ≠ i → (j ∈ locks' ↔ j ∈ locks))
    (distinct : locks'.Nodup) (paired : ∀ j, j ∈ locks' → j ∈ held') :
    Held sb held' locks' (fs.put i after ip) := by
  refine ⟨sound, formed, fun j => ?_, fun j => ?_, distinct, paired⟩
  · by_cases isI : j = i
    · subst isI
      rw [Fs.put_self]
      exact ref
    · rw [Fs.put_of_ne _ _ _ _ isI, counts j isI]
      exact here.refs j
  · by_cases isI : j = i
    · subst isI
      rw [Fs.put_self]
      exact lock
    · rw [Fs.put_of_ne _ _ _ _ isI, others j isI]
      exact here.locked j

/-! ### References and locks -/

theorem iget (here : Held sb held locks fs) (positive : 0 < n) (inside : n < sb.ninodes) :
    Ensures (FileSystem.iget ROOTDEV n) fs fun i fs' => Held sb (i :: held) locks fs' := by
  intro i fs' run
  have sound := iget_sound here.sound positive inside run
  have total := here.refs i
  have more : ∀ j, j ≠ i → (i :: held).count j = held.count j := fun j different =>
    List.count_cons_of_ne (Ne.symm different)
  have paired : ∀ j, j ∈ locks → j ∈ i :: held := fun j member =>
    List.mem_cons_of_mem _ (here.paired j member)
  rcases iget_ends run with ⟨-, -, -, rfl⟩ | ⟨idle, -, rfl⟩
  · refine here.put sound here.formed ?_ more (here.locked i) (fun _ _ => Iff.rfl) here.distinct paired
    rw [List.count_cons_self]
    push_cast
    omega
  · refine here.put sound here.formed ?_ more (here.locked i) (fun _ _ => Iff.rfl) here.distinct paired
    rw [List.count_cons_self]
    push_cast
    omega

theorem idup (here : Held sb held locks fs) (member : i ∈ held) :
    Ensures (FileSystem.idup i) fs fun r fs' => r = i ∧ Held sb (i :: held) locks fs' := by
  intro r fs' run
  have total := here.refs i
  cases run
  refine ⟨rfl, here.put (idup_sound here.sound (here.ref_pos member) rfl) here.formed ?_
    (fun j different => List.count_cons_of_ne (Ne.symm different)) (here.locked i)
    (fun _ _ => Iff.rfl) here.distinct fun j member => List.mem_cons_of_mem _ (here.paired j member)⟩
  rw [List.count_cons_self]
  push_cast
  omega

theorem ilock (here : Held sb held locks fs) (member : i ∈ held) :
    Ensures (FileSystem.ilock sb i) fs fun _ fs' => i ∉ locks ∧ Held sb held (i :: locks) fs' ∧
      (fs'.inode i).type = (dinode sb fs.disk (fs.inode i).inum).type := by
  intro _ fs' run
  have sound := ilock_sound here.sound run
  obtain ⟨-, unlocked, -, rfl⟩ := ilock_ends here.sound.table run
  have free : i ∉ locks := fun isLocked => by
    rw [(here.locked i).mpr isLocked] at unlocked
    cases unlocked
  refine ⟨free, here.put sound here.formed (here.refs i) (fun _ _ => rfl)
    (iff_of_true rfl List.mem_cons_self)
    (fun j different => List.mem_cons.trans (or_iff_right different))
    (List.nodup_cons.mpr ⟨free, here.distinct⟩) fun j inLocks => ?_, ?_⟩
  · rcases List.mem_cons.mp inLocks with rfl | inLocks
    · exact member
    · exact here.paired j inLocks
  · rw [Fs.setInode_self]

theorem iunlock (here : Held sb held (i :: locks) fs) :
    Ensures (FileSystem.iunlock i) fs fun _ fs' => i ∉ locks ∧ Held sb held locks fs' := by
  intro _ fs' run
  have sound := iunlock_sound here.sound run
  obtain ⟨-, -, rfl⟩ := iunlock_ends run
  obtain ⟨free, distinct⟩ := List.nodup_cons.mp here.distinct
  exact ⟨free, here.put sound here.formed (here.refs i) (fun _ _ => rfl)
    (iff_of_false Bool.false_ne_true free)
    (fun j different => (List.mem_cons.trans (or_iff_right different)).symm) distinct
    fun j inLocks => here.paired j (List.mem_cons_of_mem _ inLocks)⟩

/-- The caller that drops a reference keeps one to every inode it has locked. -/
theorem iput (here : Held sb (i :: held) locks fs) (kept : i ∈ locks → i ∈ held) :
    Ensures (Namespace.iput sb i).run fs fun _ fs' => Held sb held locks fs' := by
  have pos := here.ref_pos (i := i) List.mem_cons_self
  have total := here.refs i
  rw [List.count_cons_self] at total
  push_cast at total
  have counts : ∀ j, j ≠ i → held.count j = (i :: held).count j := fun j different =>
    (List.count_cons_of_ne (Ne.symm different)).symm
  have paired : ∀ j, j ∈ locks → j ∈ held := fun j inLocks => by
    rcases List.mem_cons.mp (here.paired j inLocks) with rfl | member
    · exact kept inLocks
    · exact member
  have unshared : (fs.inode i).lock = true → 1 < (fs.inode i).ref := fun isLocked => by
    have count := List.count_pos_iff.mpr (kept ((here.locked i).mp isLocked))
    omega
  rw [run_iput]
  intro _ fs' run
  obtain ⟨sound, ⟨-, rfl⟩ | ⟨one, -, -, touches, same, own⟩⟩ :=
    (iput_spec here.sound pos unshared).ensures _ _ run
  · exact here.put sound here.formed (show _ ≤ (fs.inode i).ref - 1 by omega) counts (here.locked i)
      (fun _ _ => Iff.rfl) here.distinct paired
  · rw [same] at sound ⊢
    refine here.put sound (here.formed.touches touches fun inUse => ?_) (show _ ≤ (0 : Int) by omega)
      counts (here.locked i) (fun _ _ => Iff.rfl) here.distinct paired
    refine absurd ?_ inUse.2.2
    rw [own]

theorem iunlockput (here : Held sb (i :: held) (i :: locks) fs) :
    Ensures (Namespace.iunlockput sb i).run fs fun _ fs' => Held sb held locks fs' :=
  .seq (.atomic here.iunlock) fun _ _ unlocked =>
    unlocked.2.iput fun isLocked => absurd isLocked unlocked.1

theorem ialloc (here : Held sb held locks fs) :
    Ensures (Namespace.ialloc sb ROOTDEV type).run fs fun r fs' =>
      Held sb (r.toList ++ held) locks fs' ∧
        ∀ i, r = some i → (dinode sb fs'.disk (fs'.inode i).inum).type = type := by
  rw [run_ialloc]
  intro r fs' run
  rcases ialloc_ends here.sound run with ⟨rfl, rfl, -⟩ |
    ⟨i, n, after, rfl, positive, inside, -, touches, own, sound, got⟩
  · exact ⟨here, nofun⟩
  · have formed : Formed sb after := here.formed.touches touches fun _ => by
      rw [own, content, own]
      exact ⟨Nat.zero_le _, fun _ => wholeDir_nil sb⟩
    have claimed : Held sb held locks { fs with disk := after } :=
      ⟨sound, formed, here.refs, here.locked, here.distinct, here.paired⟩
    have number : (fs'.inode i).inum = n := by
      rcases iget_ends got with ⟨-, -, number, rfl⟩ | ⟨-, -, rfl⟩
      · rw [Fs.setInode_self]
        exact number
      · rw [Fs.setInode_self]
    have disk : fs'.disk = after := iget_disk got
    refine ⟨claimed.iget positive inside i fs' got, fun j isI => ?_⟩
    cases isI
    rw [number, disk, own]

/-! ### Locked inodes -/

section Locked

variable (here : Held sb held locks fs) (lock : i ∈ locks)

include here lock

theorem cached : Cached sb fs.disk (fs.inode i) :=
  here.sound.cached_of_locked ((here.locked i).mpr lock)

theorem size_le : (fs.inode i).size ≤ MAXFILE * BSIZE := by
  have cached := here.cached lock
  rw [cached.same]
  exact here.formed.bounded _ cached.inUse

/-- A locked inode that is a directory has whole entries. -/
theorem openDir (isDir : (fs.inode i).type = T_DIR) :
    OpenDir sb fs i (content sb fs.disk (fs.inode i).inum) ∧
      WholeDir sb (content sb fs.disk (fs.inode i).inum) := by
  have cached := here.cached lock
  have small := here.size_le lock
  have whole := here.formed.dirs cached.inUse (by rw [← cached.same]; exact isDir)
  refine ⟨⟨here.sound.image, here.ref_pos (here.paired i lock), cached, isDir, rfl, whole.whole, ?_⟩,
    whole⟩
  rwa [content_length, ← cached.same]

omit lock in
/-- A step on one inode that keeps its place in the table. -/
theorem step {after : Disk} {ip : Inode} (sound : (fs.put i after ip).Sound sb)
    (touches : Touches sb (fs.inode i).inum fs.disk after)
    (own : dinode sb after (fs.inode i).inum = ip.toDinode) (size : ip.size ≤ MAXFILE * BSIZE)
    (dir : ip.type = T_DIR → WholeDir sb (content sb after (fs.inode i).inum))
    (ref : ip.ref = (fs.inode i).ref) (sameLock : ip.lock = (fs.inode i).lock) :
    Held sb held locks (fs.put i after ip) := by
  refine here.put sound (here.formed.touches touches fun _ => ?_) (by rw [ref]; exact here.refs i)
    (fun _ _ => rfl) (by rw [sameLock]; exact here.locked i) (fun _ _ => Iff.rfl) here.distinct
    here.paired
  rw [own]
  exact ⟨size, dir⟩

theorem itrunc : Ensures (Fs.itrunc sb i) fs fun _ fs' => Held sb held locks fs' := by
  have isLocked := (here.locked i).mpr lock
  obtain ⟨after, run, touches, sound⟩ := Fs.itrunc_spec here.sound isLocked
  have cached := sound.cached_of_locked (i := i) (by rw [Fs.put_self]; exact isLocked)
  rw [Fs.put_self, Fs.put_disk] at cached
  have own : dinode sb after (fs.inode i).inum = (fs.inode i).truncated.toDinode := cached.same.symm
  intro _ fs' ends
  rw [run] at ends
  cases ends
  refine here.step sound touches own (Nat.zero_le _) (fun _ => ?_) rfl rfl
  rw [content, own]
  exact wholeDir_nil sb

/-- What `writei` leaves, when the bytes of a directory are whole entries again. -/
theorem wrote {src : CopyIn} {off n tot hi : Nat} {after : Disk} {ip : Inode}
    (written : Written sb src (fs.inode i) off n fs.disk after ip tot hi)
    (room : off + n ≤ MAXFILE * BSIZE) (sound : (fs.put i after ip).Sound sb)
    (dir : (fs.inode i).type = T_DIR → WholeDir sb (content sb after (fs.inode i).inum)) :
    Held sb held locks (fs.put i after ip) := by
  have change := written.change
  have upper := written.upper
  have small := here.size_le lock
  have own : dinode sb after (fs.inode i).inum = ip.toDinode := by
    rw [written.cached.same, change]
  refine here.step sound written.touches own ?_ (fun isDir => dir ?_) ?_ ?_
  · rw [change]
    exact max_le small (by omega)
  · rw [change] at isDir
    exact isDir
  · rw [change]
  · rw [change]

/-- Writing to an inode; the bytes that were stored are within its size. -/
theorem writei {src : CopyIn} {off n : UInt32} (dir : KeepsDir sb fs i src off n) :
    Ensures (Fs.writei sb i src off n) fs fun r fs' => Held sb held locks fs' ∧
      (fs'.inode i).type = (fs.inode i).type ∧ r ≤ (fs'.inode i).size := by
  intro r fs' run
  obtain ⟨rejected, accepted⟩ := Fs.writei_spec here.sound ((here.locked i).mpr lock) src off n
  by_cases rejects : Rejects (fs.inode i).size off n
  · rw [rejected rejects] at run
    cases run
    exact ⟨here, rfl, by omega⟩
  · obtain ⟨after, ip, tot, hi, ok, written, sound⟩ := accepted rejects
    rw [ok] at run
    cases run
    unfold Rejects at rejects
    refine ⟨here.wrote lock written (by omega) sound fun isDir => dir isDir _ _ ok, ?_, ?_⟩
    · rw [Fs.put_self, written.change]
    · rw [Fs.put_self, written.change]
      push_cast
      omega

/-- Writing a locked inode back, the blocks left alone, touches no other inode. -/
theorem writeBack {dip : Dinode} (type : dip.type = (fs.inode i).type)
    (addrs : dip.addrs = (fs.inode i).addrs) (size : dip.size ≤ (fs.inode i).size) :
    Image sb (writeDinode sb fs.disk (fs.inode i).inum dip) ∧
      Touches sb (fs.inode i).inum fs.disk (writeDinode sb fs.disk (fs.inode i).inum dip) ∧
      dinode sb (writeDinode sb fs.disk (fs.inode i).inum dip) (fs.inode i).inum = dip := by
  have cached := here.cached lock
  have image := here.sound.image
  have sizeDisk : dip.size ≤ (dinode sb fs.disk (fs.inode i).inum).size := by
    rw [← cached.same]
    exact size
  have addrsDisk : dip.addrs = (dinode sb fs.disk (fs.inode i).inum).addrs := by
    rw [addrs, cached.same]
  have typeDisk : dip.type = (dinode sb fs.disk (fs.inode i).inum).type := by
    rw [type, cached.same]
  have oldFits := dinode_fits sb fs.disk (fs.inode i).inum
  have owned : Owned sb fs.disk (Function.update (dinode sb fs.disk) (fs.inode i).inum dip) := by
    refine image.owned.congr fun m _ => ?_
    by_cases isI : m = (fs.inode i).inum
    · rw [isI, Function.update_self]
      exact ⟨typeDisk, addrsDisk⟩
    · rw [Function.update_of_ne isI]
      exact ⟨rfl, rfl⟩
  exact image.replace dip cached.inUse.2.1
    ⟨sizeDisk.trans_lt oldFits.size_lt, addrsDisk ▸ oldFits.addrs_lt⟩ owned fun _ bn small below => by
      rw [addrsDisk]
      exact image.filled _ cached.inUse bn small (by omega)

/-- Assigning to fields of a locked inode and writing it back, the blocks left alone. -/
theorem iupdate {dip : Dinode} (type : dip.type = (fs.inode i).type)
    (addrs : dip.addrs = (fs.inode i).addrs) (size : dip.size ≤ (fs.inode i).size)
    (dir : (fs.inode i).type = T_DIR → dip.size = (fs.inode i).size) :
    Ensures (Fs.iupdate sb i) (fs.setInode i { fs.inode i with toDinode := dip }) fun _ fs' =>
      Held sb held locks fs' ∧ (fs'.inode i).type = (fs.inode i).type ∧
        ∀ j, j ≠ i → fs'.inode j = fs.inode j := by
  have isLocked := (here.locked i).mpr lock
  have cached := here.cached lock
  obtain ⟨image', touches, own⟩ := here.writeBack lock type addrs size
  have inUse : InUse sb (dinode sb (writeDinode sb fs.disk (fs.inode i).inum dip))
      (fs.inode i).inum :=
    ⟨cached.inUse.1, cached.inUse.2.1, by rw [own, type, cached.same]; exact cached.inUse.2.2⟩
  have sound : (fs.put i _ { fs.inode i with toDinode := dip }).Sound sb :=
    here.sound.step isLocked image' touches ⟨inUse, own.symm⟩ ⟨rfl, rfl⟩ ⟨rfl, rfl⟩
  have run : Fs.iupdate sb i (fs.setInode i { fs.inode i with toDinode := dip }) =
      .ok ((), fs.put i (writeDinode sb fs.disk (fs.inode i).inum dip)
        { fs.inode i with toDinode := dip }) := by
    rw [Fs.iupdate, Fs.setInode_self]
    rfl
  intro _ fs' ends
  rw [run] at ends
  cases ends
  refine ⟨here.step sound touches own (size.trans (here.size_le lock)) (fun isDir => ?_) rfl rfl,
    ?_, fun j different => Fs.put_of_ne _ _ _ _ different⟩
  · have wasDir : (fs.inode i).type = T_DIR := type.symm.trans isDir
    have whole := (here.openDir lock wasDir).2
    rw [content_writeDinode here.sound.image cached.inUse own (by rw [addrs, cached.same])
      (by rw [← cached.same]; exact size), dir wasDir, cached.same, ← content_length sb fs.disk,
      List.take_length]
    exact whole
  · rw [Fs.put_self]
    exact type

end Locked

/-! ### Directories -/

section Directory

variable (here : Held sb held locks fs) (lock : dp ∈ locks)

include here lock

/-- `dirlookup` finds nothing, or takes a reference; what is locked is a directory. -/
theorem dirlookup : Ensures (Namespace.dirlookup sb dp nm).run fs fun r fs' =>
    (r = none ∧ fs' = fs ∧ (fs.inode dp).type = T_DIR) ∨
      ∃ i off, r = some (i, off) ∧ Held sb (i :: held) locks fs' := by
  by_cases isDir : (fs.inode dp).type = T_DIR
  · obtain ⟨dir, whole⟩ := here.openDir lock isDir
    have device : (fs.inode dp).dev = ROOTDEV := (here.sound.table.named dir.held).1
    intro r fs' run
    rw [run_dirlookup dir, device] at run
    cases found : lookup (content sb fs.disk (fs.inode dp).inum) (key nm) with
    | none =>
      rw [found] at run
      cases run
      exact Or.inl ⟨rfl, rfl, isDir⟩
    | some entry =>
      rw [found] at run
      have isEntry := (lookup_eq_some.mp found).1
      obtain ⟨i, middle, got, rest⟩ := bind_ends.mp run
      cases rest
      exact Or.inr ⟨i, _, rfl, here.iget (Nat.pos_of_ne_zero (entry_ne_zero isEntry))
        (whole.inside isEntry) i _ got⟩
  · refine .seq_run (a := fs.inode dp) rfl ?_
    rw [if_pos isDir]
    exact .atomic fun _ _ run => nomatch run

/-- Storing an entry in the first free slot of a directory. -/
theorem store (isDir : (fs.inode dp).type = T_DIR) (positive : 0 < n) (inside : n < sb.ninodes)
    (width : sb.ninodes ≤ 2 ^ 16) :
    Ensures (Fs.writei sb dp (.kernel (newDirent nm n).toBytes) (UInt32.ofNat
      (direntSize * freeSlot (content sb fs.disk (fs.inode dp).inum))) 16) fs fun _ fs' =>
        Held sb held locks fs' := by
  intro r fs' run
  obtain ⟨dir, whole⟩ := here.openDir lock isDir
  have cached := here.cached lock
  have start := freeSlot_le (content sb fs.disk (fs.inode dp).inum)
  have offset := @entryOffset (freeSlot (content sb fs.disk (fs.inode dp).inum)) (by
    have small := dir.small
    unfold slots direntSize at *
    omega)
  have sixteen : (16 : UInt32).toNat = direntSize := rfl
  have length : (newDirent nm n).toBytes.length = direntSize := (newDirent nm n).toBytes_length
  have copies : ∀ tot m, (CopyIn.kernel (newDirent nm n).toBytes).fault tot m = none := fun _ _ => rfl
  obtain ⟨rejected, accepted⟩ := Fs.writei_spec here.sound ((here.locked dp).mpr lock)
    (.kernel (newDirent nm n).toBytes) (UInt32.ofNat
      (direntSize * freeSlot (content sb fs.disk (fs.inode dp).inum))) 16
  by_cases rejects : Rejects (fs.inode dp).size (UInt32.ofNat
      (direntSize * freeSlot (content sb fs.disk (fs.inode dp).inum))) 16
  · rw [rejected rejects] at run
    cases run
    exact here
  · obtain ⟨after, ip, tot, hi, ok, written, sound⟩ := accepted rejects
    rw [ok] at run
    cases run
    obtain ⟨⟨after', ip', r⟩, inner, rest⟩ := bind_eq_ok.mp ok
    obtain rfl : r = tot := (Prod.mk.inj (Except.ok.inj rest)).1
    have fits : (UInt32.ofNat (direntSize * freeSlot (content sb fs.disk (fs.inode dp).inum))).toNat %
        BSIZE + (16 : UInt32).toNat ≤ BSIZE := by
      rw [offset, sixteen]
      unfold direntSize BSIZE
      omega
    obtain ⟨-, -, addr, -, all⟩ := writei_block copies (by decide) fits rejects inner
    have checks := rejects
    unfold Rejects at checks
    rw [offset] at written checks
    have contents := written.content_eq cached copies (by omega) (here.size_le lock) (by omega)
    refine here.wrote lock written (by omega) sound fun _ => ?_
    rw [contents, kernel_bytes (by rw [length, all, sixteen]; split_ifs <;> omega), all]
    split_ifs with missing
    · rw [List.take_zero, overwrite_nil]
      exact whole
    · rw [sixteen, List.take_of_length_le (le_of_eq length)]
      exact whole.link positive inside width

/-- `dirlink` keeps the ledger; when it succeeds, the other entries of the table are as before. -/
theorem dirlink (positive : 0 < n) (inside : n < sb.ninodes) (width : sb.ninodes ≤ 2 ^ 16) :
    Ensures (Namespace.dirlink sb dp nm n).run fs fun r fs' => Held sb held locks fs' ∧
      (¬ r < 0 → ∀ j, j ≠ dp → fs'.inode j = fs.inode j) := by
  refine .seq (here.dirlookup lock) fun r fs₁ found => ?_
  rcases found with ⟨rfl, rfl, isDir⟩ | ⟨i, off, rfl, entered⟩
  · refine .seq_run (a := fs₁.inode dp) rfl (.seq_run (run_empty (here.openDir lock isDir).1) ?_)
    refine .seq (.atomic ((here.store lock isDir positive inside width).both writei_entries))
      fun r fs₂ stored => ?_
    by_cases short : r ≠ direntSize
    · rw [if_pos short]
      exact .done ⟨stored.1, fun _ => stored.2⟩
    · rw [if_neg short]
      exact .done ⟨stored.1, fun _ => stored.2⟩
  · refine .seq (entered.iput (here.paired i)) fun _ fs₂ dropped => .done ⟨dropped, fun success => ?_⟩
    exact absurd (by decide) success

end Directory

/-! ### Paths -/

theorem namexEnd (here : Held sb (i :: held) [] fs) (parent : Bool) :
    Ensures (Namespace.namexEnd sb parent i nm).run fs fun r fs' =>
      Held sb (r.1.toList ++ held) [] fs' := by
  rw [Namespace.namexEnd]
  by_cases isParent : parent = true
  · rw [if_pos isParent]
    exact .seq (here.iput fun isLocked => absurd isLocked List.not_mem_nil) fun _ fs' after =>
      .done after
  · rw [if_neg isParent]
    exact .done here

/-- The loop of `namex`. -/
theorem namexFrom (parent : Bool) (fuel : Nat) : ∀ {path nm i fs}, Held sb (i :: held) [] fs →
    Ensures (Namespace.namexFrom sb parent fuel path i nm).run fs fun r fs' =>
      Held sb (r.1.toList ++ held) [] fs' := by
  induction fuel with
  | zero => exact fun here => here.namexEnd parent
  | succ fuel ih =>
    intro path nm i fs here
    rw [Namespace.namexFrom]
    cases skipped : skipelem path nm with
    | none => exact here.namexEnd parent
    | some next =>
      obtain ⟨rest, nm'⟩ := next
      dsimp only
      refine .seq (.atomic (here.ilock List.mem_cons_self)) fun _ fs₁ locked => ?_
      obtain ⟨-, locked, -⟩ := locked
      refine .seq_run (a := fs₁.inode i) rfl ?_
      by_cases isDir : (fs₁.inode i).type = T_DIR
      · rw [if_neg (not_not.mpr isDir)]
        by_cases stop : parent = true ∧ rest.headD 0 = 0
        · rw [if_pos stop]
          exact .seq (.atomic locked.iunlock) fun _ fs₂ unlocked => .done unlocked.2
        · rw [if_neg stop]
          refine .seq (locked.dirlookup List.mem_cons_self) fun r fs₂ found => ?_
          rcases found with ⟨rfl, rfl, -⟩ | ⟨j, off, rfl, entered⟩
          · exact .seq locked.iunlockput fun _ fs₃ after => .done after
          · have swapped := entered.perm (List.Perm.swap i j held) (List.Perm.refl _)
            exact .seq swapped.iunlockput fun _ fs₃ after => ih after
      · rw [if_pos isDir]
        exact .seq locked.iunlockput fun _ fs₂ after => .done after

theorem namex (here : Held sb held [] fs) (root : ROOTINO < sb.ninodes) {cwd : Ip} (member : cwd ∈ held)
    (parent : Bool) (path : List UInt8) :
    Ensures (Namespace.namex sb cwd path parent nm).run fs fun r fs' =>
      Held sb (r.1.toList ++ held) [] fs' := by
  rw [Namespace.namex]
  by_cases absolute : path.headD 0 = slash
  · rw [if_pos absolute]
    exact .seq (.atomic (here.iget (by decide) root)) fun i fs₁ begun => begun.namexFrom parent _
  · rw [if_neg absolute]
    refine .seq (.atomic (here.idup member)) fun i fs₁ begun => ?_
    obtain ⟨rfl, begun⟩ := begun
    exact begun.namexFrom parent _

/-! ### `create` -/

/-- An inode that the caller refers to is one of the image. -/
theorem inum_range (here : Held sb held locks fs) (member : i ∈ held) :
    0 < (fs.inode i).inum ∧ (fs.inode i).inum < sb.ninodes :=
  (here.sound.table.named (here.ref_pos member)).2

theorem createDots (here : Held sb held locks fs) (lock : i ∈ locks) (member : dp ∈ held)
    (width : sb.ninodes ≤ 2 ^ 16) :
    Ensures (Namespace.createDots sb i dp).run fs fun _ fs' => Held sb held locks fs' := by
  obtain ⟨positive, inside⟩ := here.inum_range (here.paired i lock)
  refine .seq_run (a := fs.inode i) rfl (.seq (here.dirlink lock positive inside width)
    fun r fs₁ first => ?_)
  by_cases failed : r < 0
  · rw [if_pos failed]
    exact .done first.1
  · rw [if_neg failed]
    obtain ⟨positive, inside⟩ := first.1.inum_range member
    exact .seq_run (a := fs₁.inode dp) rfl (.seq (first.1.dirlink lock positive inside width)
      fun r fs₂ second => .done second.1)

theorem createFail (here : Held sb (i :: dp :: held) [i, dp] fs) :
    Ensures (Namespace.createFail sb dp i).run fs fun r fs' => r = none ∧ Held sb held [] fs' := by
  refine .seq_run rfl (.seq (.atomic (here.iupdate List.mem_cons_self rfl rfl le_rfl fun _ => rfl))
    fun _ fs₁ updated => ?_)
  refine .seq updated.1.iunlockput fun _ fs₂ first => ?_
  exact .seq first.iunlockput fun _ fs₃ second => .done ⟨rfl, second⟩

/-- A locked inode, new or found, that is a directory only when one was asked for. -/
def Created (sb : Superblock) (held : List Ip) (type : Int16) (r : Option Ip) (fs : Fs) : Prop :=
  (r = none ∧ Held sb held [] fs) ∨ ∃ i, r = some i ∧ Held sb (i :: held) [i] fs ∧
    (type ≠ T_DIR → (fs.inode i).type ≠ T_DIR)

/-- The end of `createNew`: the new inode is entered in the directory. -/
theorem createEnd (here : Held sb (i :: dp :: held) [i, dp] fs) (width : sb.ninodes ≤ 2 ^ 16)
    (apart : i ≠ dp) (file : type ≠ T_DIR → (fs.inode i).type ≠ T_DIR) (made : Bool) :
    Ensures (if made = false then Namespace.createFail sb dp i
      else do
        let ip ← atomic (inode i)
        let r ← Namespace.dirlink sb dp nm ip.inum
        if r < 0 then Namespace.createFail sb dp i
        else
          if type = T_DIR then
            atomic (assign dp fun d => { d with nlink := d.nlink + 1 })
            atomic (Fs.iupdate sb dp)
          Namespace.iunlockput sb dp
          return some i).run fs (Created sb held type) := by
  have second : dp ∈ [i, dp] := List.mem_cons_of_mem _ List.mem_cons_self
  by_cases failed : made = false
  · rw [if_pos failed]
    exact here.createFail.weaken fun r fs₅ after => Or.inl after
  · rw [if_neg failed]
    obtain ⟨positive, inside⟩ := here.inum_range (i := i) List.mem_cons_self
    refine .seq_run (a := fs.inode i) rfl (.seq (here.dirlink second positive inside width)
      fun r fs₁ linked => ?_)
    obtain ⟨linked, same⟩ := linked
    by_cases short : r < 0
    · rw [if_pos short]
      exact linked.createFail.weaken fun r fs₂ after => Or.inl after
    · rw [if_neg short]
      have finish : ∀ {fs₂}, Held sb (i :: dp :: held) [i, dp] fs₂ → fs₂.inode i = fs₁.inode i →
          Ensures (Namespace.iunlockput sb dp >>= fun _ => pure (some i)).run fs₂
            (Created sb held type) := by
        intro fs₂ last sameEntry
        have swapped := last.perm (List.Perm.swap dp i held) (List.Perm.swap dp i [])
        refine .seq (swapped.iunlockput.both iunlockput_entries) fun _ fs₃ after =>
          .done (Or.inr ⟨i, rfl, after.1, fun notDir => ?_⟩)
        rw [after.2 i apart, sameEntry, same short i apart]
        exact file notDir
      by_cases isDir : type = T_DIR
      · rw [if_pos isDir]
        refine .seq_run rfl (.seq (.atomic (linked.iupdate second rfl rfl le_rfl fun _ => rfl))
          fun _ fs₂ counted => ?_)
        exact finish counted.1 (counted.2.2 i apart)
      · rw [if_neg isDir]
        exact finish linked rfl

theorem createNew (here : Held sb (dp :: held) [dp] fs) (width : sb.ninodes ≤ 2 ^ 16) :
    Ensures (Namespace.createNew sb dp nm type major minor).run fs (Created sb held type) := by
  have device : (fs.inode dp).dev = ROOTDEV :=
    (here.sound.table.named (here.ref_pos List.mem_cons_self)).1
  refine .seq_run (a := fs.inode dp) rfl ?_
  rw [device]
  refine .seq here.ialloc fun r fs₁ allocated => ?_
  obtain ⟨allocated, typed⟩ := allocated
  cases r with
  | none => exact .seq allocated.iunlockput fun _ fs₂ after => .done (Or.inl ⟨rfl, after⟩)
  | some i =>
    refine .seq (.atomic (allocated.ilock List.mem_cons_self)) fun _ fs₂ locked => ?_
    obtain ⟨free, locked, isType⟩ := locked
    rw [typed i rfl] at isType
    have apart : i ≠ dp := fun same => free (same ▸ List.mem_cons_self)
    refine .seq_run rfl (.seq (.atomic (locked.iupdate List.mem_cons_self rfl rfl le_rfl fun _ => rfl))
      fun _ fs₃ updated => ?_)
    obtain ⟨updated, sameType, -⟩ := updated
    have parent : dp ∈ i :: dp :: held := List.mem_cons_of_mem _ List.mem_cons_self
    by_cases isDir : type = T_DIR
    · dsimp only
      rw [if_pos isDir]
      exact .seq (updated.createDots List.mem_cons_self parent width) fun made fs₄ dots =>
        dots.createEnd width apart (fun file => absurd isDir file) made
    · dsimp only
      rw [if_neg isDir]
      refine .seq_run (a := true) rfl (updated.createEnd width apart (fun file => ?_) true)
      rw [sameType, isType]
      exact file

theorem create (here : Held sb held [] fs) (root : ROOTINO < sb.ninodes) (width : sb.ninodes ≤ 2 ^ 16)
    {cwd : Ip} (member : cwd ∈ held) (path : List UInt8) :
    Ensures (Namespace.create sb cwd path type major minor nm).run fs (Created sb held type) := by
  refine .seq (here.namex root member true path) fun r fs₁ walked => ?_
  obtain ⟨r, nm'⟩ := r
  cases r with
  | none => exact .done (Or.inl ⟨rfl, walked⟩)
  | some dp =>
    refine .seq (.atomic (walked.ilock List.mem_cons_self)) fun _ fs₂ locked => ?_
    obtain ⟨-, locked, -⟩ := locked
    refine .seq (locked.dirlookup List.mem_cons_self) fun r fs₃ found => ?_
    rcases found with ⟨rfl, rfl, -⟩ | ⟨i, off, rfl, entered⟩
    · exact locked.createNew width
    · have swapped := entered.perm (List.Perm.swap dp i held) (List.Perm.refl _)
      refine .seq swapped.iunlockput fun _ fs₄ dropped => ?_
      refine .seq (.atomic (dropped.ilock List.mem_cons_self)) fun _ fs₅ relocked => ?_
      obtain ⟨-, relocked, -⟩ := relocked
      refine .seq_run (a := fs₅.inode i) rfl ?_
      by_cases opens : type = T_FILE ∧ ((fs₅.inode i).type = T_FILE ∨ (fs₅.inode i).type = T_DEVICE)
      · rw [if_pos opens]
        refine .done (Or.inr ⟨i, rfl, relocked, fun _ => ?_⟩)
        rcases opens.2 with isFile | isDevice
        · rw [isFile]
          decide
        · rw [isDevice]
          decide
      · rw [if_neg opens]
        exact .seq relocked.iunlockput fun _ fs₆ after => .done (Or.inl ⟨rfl, after⟩)

end Held

end Csc3150.Namespace
