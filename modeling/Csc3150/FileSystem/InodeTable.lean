/-
**The inode table: `iget`, `idup`, `ilock`, `iunlock`, `iput`, `ialloc`.**

The kernel keeps a table of in-use inodes in memory; `Fs` is that table together with the disk. The
functions of `fs.c` that take a `struct inode *ip` are programs over `Fs` here, and `ip` is an index
into the table. `acquiresleep` on a lock that is held stops the path (`Halt.asleep`).

* `Fs.Sound` — the disk is a well-formed image and the table a coherent cache of it;
* `iget_sound`, `ilock_sound`, … — every function keeps this, and each lemma says what else it does.
-/

import Csc3150.FileSystem.Image
import Csc3150.Library.Program

namespace Csc3150.FileSystem

open ByteBuffer Outcome Ownership Program Search

/-- Maximum number of active i-nodes. -/
def NINODE : Nat := 50

/-- A pointer to an entry of `itable.inode[]`. -/
abbrev Ip := Fin NINODE

/-- The disk and the inode table. -/
structure Fs where
  disk : Disk
  inode : Ip → Inode

namespace Fs

/-- Change the disk and one entry of the table. -/
def put (fs : Fs) (i : Ip) (disk : Disk) (ip : Inode) : Fs :=
  ⟨disk, Function.update fs.inode i ip⟩

/-- Change one entry of the table. -/
def setInode (fs : Fs) (i : Ip) (ip : Inode) : Fs := fs.put i fs.disk ip

variable (fs : Fs) (i : Ip) (disk : Disk) (ip : Inode)

@[simp] theorem put_disk : (fs.put i disk ip).disk = disk := rfl

@[simp] theorem put_self : (fs.put i disk ip).inode i = ip := Function.update_self _ _ _

theorem put_of_ne {j : Ip} (different : j ≠ i) :
    (fs.put i disk ip).inode j = fs.inode j := Function.update_of_ne different _ _

@[simp] theorem setInode_disk : (fs.setInode i ip).disk = fs.disk := rfl

@[simp] theorem setInode_self : (fs.setInode i ip).inode i = ip := Function.update_self _ _ _

theorem setInode_of_ne {j : Ip} (different : j ≠ i) :
    (fs.setInode i ip).inode j = fs.inode j := Function.update_of_ne different _ _

end Fs

/-- A kernel path through the file system. -/
abbrev FsProg (α : Type) := Prog Halt Fs α

section Functions

variable (sb : Superblock)

/-- Find the inode with number `inum` on device `dev` and return the in-memory copy. -/
def iget (dev inum : Nat) : FsProg Ip := fun fs =>
  let hit := searchFin fun i =>
    let ip := fs.inode i
    if 0 < ip.ref ∧ ip.dev = dev ∧ ip.inum = inum then some i else none
  match hit with
  | some i => .ok (i, fs.setInode i { fs.inode i with ref := (fs.inode i).ref + 1 })
  | none =>
    match searchFin fun i => if (fs.inode i).ref = 0 then some i else none with
    | some empty =>
      -- recycle an inode entry
      .ok (empty, fs.setInode empty
        { fs.inode empty with dev := dev, inum := inum, ref := 1, valid := false })
    | none => .error .igetNoInodes

/-- Increment reference count for `ip`. -/
def idup (i : Ip) : FsProg Ip := fun fs =>
  .ok (i, fs.setInode i { fs.inode i with ref := (fs.inode i).ref + 1 })

/-- Lock the given inode; read it from disk if necessary. -/
def ilock (i : Ip) : FsProg Unit := fun fs =>
  let ip := fs.inode i
  if ip.ref < 1 then .error .ilock
  else if ip.lock then .error .asleep
  else if ip.valid then .ok ((), fs.setInode i { ip with lock := true })
  else
    let ip := { ip with toDinode := dinode sb fs.disk ip.inum, lock := true, valid := true }
    if ip.type = 0 then .error .ilockNoType else .ok ((), fs.setInode i ip)

/-- Unlock the given inode. -/
def iunlock (i : Ip) : FsProg Unit := fun fs =>
  let ip := fs.inode i
  if ip.lock = false ∨ ip.ref < 1 then .error .iunlock
  else .ok ((), fs.setInode i { ip with lock := false })

/-- Drop a reference; free the inode and its content when it was the last one and no link is left. -/
def iput (i : Ip) : FsProg Unit := fun fs =>
  let ip := fs.inode i
  if ip.ref = 1 ∧ ip.valid ∧ ip.nlink = 0 then
    if ip.lock then .error .asleep
    else do
      let (disk, ip) ← itrunc sb fs.disk { ip with lock := true }
      let ip := { ip with type := 0 }
      let disk := iupdate sb disk ip
      let ip := { ip with valid := false, lock := false }
      let ip := { ip with ref := ip.ref - 1 }
      return ((), fs.put i disk ip)
  else .ok ((), fs.setInode i { ip with ref := ip.ref - 1 })

/-- Common idiom: unlock, then put. -/
def iunlockput (i : Ip) : FsProg Unit := do
  iunlock i
  iput sb i

/-- Allocate an inode on device `dev`: mark it allocated by giving it type `type`. -/
def ialloc (dev : Nat) (type : Int16) : FsProg (Option Ip) := fun fs =>
  let free := search (fun inum => if (dinode sb fs.disk inum).type = 0 then some inum else none)
    (sb.ninodes - 1) 1
  match free with
  | some inum =>
    let disk := writeDinode sb fs.disk inum { Dinode.zero with type := type }
    do
      let (ip, fs) ← iget dev inum { fs with disk := disk }
      return (some ip, fs)
  | none => .ok (none, fs)

/-- Copy a modified in-memory inode to disk. -/
def Fs.iupdate (i : Ip) : FsProg Unit := fun fs =>
  .ok ((), { fs with disk := FileSystem.iupdate sb fs.disk (fs.inode i) })

/-- Read data from the inode at `ip`. -/
def Fs.readi (i : Ip) (dst : CopyOut) (off n : UInt32) : FsProg (Int × List UInt8) := fun fs => do
  let (disk, ip, r, bytes) ← FileSystem.readi sb fs.disk (fs.inode i) dst off n
  return ((r, bytes), fs.put i disk ip)

/-- Write data to the inode at `ip`. -/
def Fs.writei (i : Ip) (src : CopyIn) (off n : UInt32) : FsProg Int := fun fs => do
  let (disk, ip, r) ← FileSystem.writei sb fs.disk (fs.inode i) src off n
  return (r, fs.put i disk ip)

/-- Truncate the inode at `ip`. -/
def Fs.itrunc (i : Ip) : FsProg Unit := fun fs => do
  let (disk, ip) ← FileSystem.itrunc sb fs.disk (fs.inode i)
  return ((), fs.put i disk ip)

end Functions

/-! ### Soundness -/

/-- The table is a cache of the inodes on disk. -/
structure Coherent (sb : Superblock) (fs : Fs) : Prop where
  ref_nonneg : ∀ i, 0 ≤ (fs.inode i).ref
  named : ∀ {i}, 0 < (fs.inode i).ref →
    (fs.inode i).dev = ROOTDEV ∧ 0 < (fs.inode i).inum ∧ (fs.inode i).inum < sb.ninodes
  unique : ∀ {i j}, 0 < (fs.inode i).ref → 0 < (fs.inode j).ref →
    (fs.inode j).inum = (fs.inode i).inum → j = i
  cached : ∀ {i}, 0 < (fs.inode i).ref → (fs.inode i).valid = true →
    Cached sb fs.disk (fs.inode i)
  locked : ∀ {i}, (fs.inode i).lock = true → 0 < (fs.inode i).ref ∧ (fs.inode i).valid = true

/-- A well-formed image under a coherent inode table. -/
structure Fs.Sound (sb : Superblock) (fs : Fs) : Prop where
  image : Image sb fs.disk
  table : Coherent sb fs

section Coherent

variable {sb : Superblock} {fs : Fs} {i : Ip} {ip : Inode} {after : Disk} {inum : Nat}

theorem Cached.touched {disk : Disk} (cached : Cached sb disk ip)
    (touches : Touches sb inum disk after) (different : ip.inum ≠ inum) :
    Cached sb after ip := by
  have same := touches.inodes ip.inum cached.inUse.2.1 different
  refine ⟨?_, by rw [same, cached.same]⟩
  unfold InUse
  rw [same]
  exact cached.inUse

/-- A step on the disk that touches no cached inode. -/
theorem Coherent.disk (table : Coherent sb fs) (touches : Touches sb inum fs.disk after)
    (apart : ∀ j, 0 < (fs.inode j).ref → (fs.inode j).valid = true → (fs.inode j).inum ≠ inum) :
    Coherent sb { fs with disk := after } where
  ref_nonneg := table.ref_nonneg
  named := table.named
  unique := table.unique
  cached held valid := (table.cached held valid).touched touches (apart _ held valid)
  locked := table.locked

/-- A step on the inode of a referenced entry, on disk and in the table. -/
theorem Coherent.step (table : Coherent sb fs) (held : 0 < (fs.inode i).ref)
    (touches : Touches sb (fs.inode i).inum fs.disk after) (ref : 0 ≤ ip.ref)
    (name : ip.dev = (fs.inode i).dev ∧ ip.inum = (fs.inode i).inum)
    (cached : 0 < ip.ref → ip.valid = true → Cached sb after ip)
    (locked : ip.lock = true → 0 < ip.ref ∧ ip.valid = true) :
    Coherent sb (fs.put i after ip) := by
  have self : (fs.put i after ip).inode i = ip := fs.put_self i after ip
  have other : ∀ {j}, j ≠ i → (fs.put i after ip).inode j = fs.inode j :=
    fun different => fs.put_of_ne i after ip different
  have number : ∀ j, ((fs.put i after ip).inode j).inum = (fs.inode j).inum := by
    intro j
    by_cases same : j = i
    · rw [same, self, name.2]
    · rw [other same]
  have heldAfter : ∀ {j}, 0 < ((fs.put i after ip).inode j).ref → 0 < (fs.inode j).ref := by
    intro j positive
    by_cases same : j = i
    · rwa [same]
    · rwa [other same] at positive
  refine ⟨fun j => ?_, fun {j} positive => ?_, fun {j k} positive positive' same => ?_,
    fun {j} positive valid => ?_, fun {j} isLocked => ?_⟩
  · by_cases same : j = i
    · rw [same, self]
      exact ref
    · rw [other same]
      exact table.ref_nonneg j
  · have here := table.named (heldAfter positive)
    by_cases same : j = i
    · subst same
      rwa [self, name.1, name.2]
    · rwa [other same]
  · rw [number, number] at same
    exact table.unique (heldAfter positive) (heldAfter positive') same
  · by_cases same : j = i
    · subst same
      rw [self] at positive valid ⊢
      exact cached positive valid
    · rw [other same] at positive valid ⊢
      exact (table.cached positive valid).touched touches
        fun shared => same (table.unique held positive shared)
  · by_cases same : j = i
    · subst same
      rw [self] at isLocked ⊢
      exact locked isLocked
    · rw [other same] at isLocked ⊢
      exact table.locked isLocked

theorem Touches.refl (sb : Superblock) (inum : Nat) (disk : Disk) : Touches sb inum disk disk :=
  ⟨fun _ _ _ => rfl, fun _ _ _ _ _ => rfl⟩

/-- A change of one referenced entry that leaves the disk alone. -/
theorem Coherent.setInode (table : Coherent sb fs) (held : 0 < (fs.inode i).ref) (ref : 0 ≤ ip.ref)
    (name : ip.dev = (fs.inode i).dev ∧ ip.inum = (fs.inode i).inum)
    (cached : 0 < ip.ref → ip.valid = true → Cached sb fs.disk ip)
    (locked : ip.lock = true → 0 < ip.ref ∧ ip.valid = true) : Coherent sb (fs.setInode i ip) :=
  table.step held (Touches.refl _ _ _) ref name cached locked

theorem Cached.congr {disk : Disk} {ip ip' : Inode} (cached : Cached sb disk ip)
    (number : ip'.inum = ip.inum) (same : ip'.toDinode = ip.toDinode) : Cached sb disk ip' :=
  ⟨number ▸ cached.inUse, by rw [same, number, cached.same]⟩

/-- A change of a reference count. -/
theorem Coherent.setRef (table : Coherent sb fs) (held : 0 < (fs.inode i).ref) {r : Int}
    (nonneg : 0 ≤ r) (still : (fs.inode i).lock = true → 0 < r) :
    Coherent sb (fs.setInode i { fs.inode i with ref := r }) :=
  table.setInode held nonneg ⟨rfl, rfl⟩
    (fun _ valid => (table.cached held valid).congr rfl rfl)
    fun isLocked => ⟨still isLocked, (table.locked isLocked).2⟩

/-- Entries without references hold no lock. -/
theorem Coherent.unlocked (table : Coherent sb fs) (idle : (fs.inode i).ref = 0) :
    (fs.inode i).lock = false := by
  by_contra isLocked
  have := (table.locked (Bool.eq_true_of_not_eq_false isLocked)).1
  omega

/-- An idle entry is given to an inode that is not in the table. -/
theorem Coherent.recycle (table : Coherent sb fs) (idle : (fs.inode i).ref = 0)
    (absent : ∀ j, 0 < (fs.inode j).ref → (fs.inode j).inum ≠ inum) (positive : 0 < inum)
    (inside : inum < sb.ninodes) :
    Coherent sb (fs.setInode i
      { fs.inode i with dev := ROOTDEV, inum := inum, ref := 1, valid := false }) := by
  have unlocked := table.unlocked idle
  have cases : ∀ {j}, 0 < ((fs.setInode i
      { fs.inode i with dev := ROOTDEV, inum := inum, ref := 1, valid := false }).inode j).ref →
      j = i ∨ j ≠ i ∧ 0 < (fs.inode j).ref := by
    intro j held
    by_cases same : j = i
    · exact Or.inl same
    · rw [Fs.setInode_of_ne _ _ _ same] at held
      exact Or.inr ⟨same, held⟩
  refine ⟨fun j => ?_, fun {j} held => ?_, fun {j k} held held' shared => ?_,
    fun {j} held valid => ?_, fun {j} isLocked => ?_⟩
  · by_cases same : j = i
    · rw [same, Fs.setInode_self]
      exact Int.one_nonneg
    · rw [Fs.setInode_of_ne _ _ _ same]
      exact table.ref_nonneg j
  · rcases cases held with rfl | ⟨different, held'⟩
    · rw [Fs.setInode_self]
      exact ⟨rfl, positive, inside⟩
    · rw [Fs.setInode_of_ne _ _ _ different]
      exact table.named held'
  · rcases cases held with rfl | ⟨different, heldJ⟩ <;>
      rcases cases held' with rfl | ⟨different', heldK⟩
    · rfl
    · rw [Fs.setInode_of_ne _ _ _ different', Fs.setInode_self] at shared
      exact absurd shared (absent _ heldK)
    · rw [Fs.setInode_of_ne _ _ _ different, Fs.setInode_self] at shared
      exact absurd shared.symm (absent _ heldJ)
    · rw [Fs.setInode_of_ne _ _ _ different, Fs.setInode_of_ne _ _ _ different'] at shared
      exact table.unique heldJ heldK shared
  · rcases cases held with rfl | ⟨different, heldJ⟩
    · rw [Fs.setInode_self] at valid
      cases valid
    · rw [Fs.setInode_of_ne _ _ _ different] at valid ⊢
      exact table.cached heldJ valid
  · by_cases same : j = i
    · subst same
      rw [Fs.setInode_self] at isLocked
      rw [unlocked] at isLocked
      cases isLocked
    · rw [Fs.setInode_of_ne _ _ _ same] at isLocked ⊢
      exact table.locked isLocked

end Coherent

/-! ### What the functions do -/

section Specs

variable {sb : Superblock} {fs fs' : Fs} {i : Ip} {inum : Nat}

/-- `iget` finds the inode in the table or gives it an idle entry. -/
theorem iget_ends {dev : Nat} (run : iget dev inum fs = .ok (i, fs')) :
    (0 < (fs.inode i).ref ∧ (fs.inode i).dev = dev ∧ (fs.inode i).inum = inum ∧
      fs' = fs.setInode i { fs.inode i with ref := (fs.inode i).ref + 1 }) ∨
    ((fs.inode i).ref = 0 ∧
      (∀ j, 0 < (fs.inode j).ref → (fs.inode j).dev = dev → (fs.inode j).inum ≠ inum) ∧
      fs' = fs.setInode i
        { fs.inode i with dev := dev, inum := inum, ref := 1, valid := false }) := by
  rw [iget] at run
  dsimp only at run
  split at run
  · rename_i hit found
    obtain ⟨j, here, -⟩ := searchFin_eq_some_iff.mp found
    split_ifs at here with match_
    cases here
    cases run
    exact Or.inl ⟨match_.1, match_.2.1, match_.2.2, rfl⟩
  · rename_i absent
    split at run
    · rename_i empty found
      obtain ⟨j, here, -⟩ := searchFin_eq_some_iff.mp found
      split_ifs at here with idle
      cases here
      cases run
      refine Or.inr ⟨idle, fun j held sameDev shared => ?_, rfl⟩
      have none := searchFin_eq_none_iff.mp absent j
      rw [if_pos ⟨held, sameDev, shared⟩] at none
      cases none
    · cases run

/-- `iget` stops when every entry is in use. -/
theorem iget_stops {dev : Nat} {error : Halt} (run : iget dev inum fs = .error error) :
    error = .igetNoInodes ∧ ∀ i, (fs.inode i).ref ≠ 0 := by
  rw [iget] at run
  dsimp only at run
  split at run
  · cases run
  · split at run
    · cases run
    · rename_i none
      cases run
      refine ⟨rfl, fun i idle => ?_⟩
      have here := searchFin_eq_none_iff.mp none i
      rw [if_pos idle] at here
      cases here

theorem iget_sound (sound : fs.Sound sb) (positive : 0 < inum) (inside : inum < sb.ninodes)
    (run : iget ROOTDEV inum fs = .ok (i, fs')) : fs'.Sound sb := by
  have table := sound.table
  rcases iget_ends run with ⟨held, -, -, rfl⟩ | ⟨idle, absent, rfl⟩
  · exact ⟨sound.image, table.setRef held (by omega) fun _ => by omega⟩
  · refine ⟨sound.image, table.recycle idle (fun j heldJ => ?_) positive inside⟩
    exact absent j heldJ (table.named heldJ).1

theorem idup_sound (sound : fs.Sound sb) (held : 0 < (fs.inode i).ref)
    (run : idup i fs = .ok (i, fs')) : fs'.Sound sb := by
  cases run
  exact ⟨sound.image, sound.table.setRef held (by omega) fun _ => by omega⟩

/-- `ilock` locks an inode in use and brings its entry up to date. -/
theorem ilock_ends (table : Coherent sb fs) (run : ilock sb i fs = .ok ((), fs')) :
    0 < (fs.inode i).ref ∧ (fs.inode i).lock = false ∧
      InUse sb (dinode sb fs.disk) (fs.inode i).inum ∧
      fs' = fs.setInode i { fs.inode i with
        toDinode := dinode sb fs.disk (fs.inode i).inum, lock := true, valid := true } := by
  rw [ilock] at run
  dsimp only at run
  split_ifs at run with unreferenced isLocked valid free
  · have held : 0 < (fs.inode i).ref := by omega
    have cached := table.cached held valid
    cases run
    refine ⟨held, Bool.eq_false_of_not_eq_true isLocked, cached.inUse, ?_⟩
    rw [← cached.same, ← valid]
  · have held : 0 < (fs.inode i).ref := by omega
    cases run
    obtain ⟨-, positive, inside⟩ := table.named held
    exact ⟨held, Bool.eq_false_of_not_eq_true isLocked, ⟨positive, inside, free⟩, rfl⟩

theorem ilock_sound (sound : fs.Sound sb) (run : ilock sb i fs = .ok ((), fs')) :
    fs'.Sound sb := by
  obtain ⟨held, -, inUse, rfl⟩ := ilock_ends sound.table run
  exact ⟨sound.image, sound.table.setInode held (le_of_lt held) ⟨rfl, rfl⟩
    (fun _ _ => ⟨inUse, rfl⟩) fun _ => ⟨held, rfl⟩⟩

theorem iunlock_ends (run : iunlock i fs = .ok ((), fs')) :
    (fs.inode i).lock = true ∧ 0 < (fs.inode i).ref ∧
      fs' = fs.setInode i { fs.inode i with lock := false } := by
  rw [iunlock] at run
  split_ifs at run with failing
  cases run
  rw [not_or] at failing
  exact ⟨Bool.eq_true_of_not_eq_false failing.1, by omega, rfl⟩

theorem iunlock_sound (sound : fs.Sound sb) (run : iunlock i fs = .ok ((), fs')) :
    fs'.Sound sb := by
  obtain ⟨isLocked, held, rfl⟩ := iunlock_ends run
  exact ⟨sound.image, sound.table.setInode held (le_of_lt held) ⟨rfl, rfl⟩
    (fun _ valid => (sound.table.cached held valid).congr rfl rfl) nofun⟩

/-- `iput` drops a reference; the last one to an inode without links frees the inode. -/
theorem iput_spec (sound : fs.Sound sb) (held : 0 < (fs.inode i).ref)
    (unshared : (fs.inode i).lock = true → 1 < (fs.inode i).ref) :
    Returns (iput sb i) fs fun _ fs' => fs'.Sound sb ∧
      ((¬ ((fs.inode i).ref = 1 ∧ (fs.inode i).valid = true ∧ (fs.inode i).nlink = 0) ∧
        fs' = fs.setInode i { fs.inode i with ref := (fs.inode i).ref - 1 }) ∨
      ((fs.inode i).ref = 1 ∧ (fs.inode i).valid = true ∧ (fs.inode i).nlink = 0 ∧
        Touches sb (fs.inode i).inum fs.disk fs'.disk ∧
        fs' = fs.put i fs'.disk { fs.inode i with
          type := 0, size := 0, addrs := fun _ => 0, ref := 0, valid := false } ∧
        dinode sb fs'.disk (fs.inode i).inum =
          { (fs.inode i).toDinode with type := 0, size := 0, addrs := fun _ => 0 })) := by
  have table := sound.table
  by_cases last : (fs.inode i).ref = 1 ∧ (fs.inode i).valid = true ∧ (fs.inode i).nlink = 0
  · obtain ⟨one, valid, nlink⟩ := last
    have unlocked : (fs.inode i).lock = false := by
      by_contra isLocked
      have := unshared (Bool.eq_true_of_not_eq_false isLocked)
      omega
    obtain ⟨ip, named⟩ : ∃ ip : Inode, ip = { fs.inode i with lock := true } := ⟨_, rfl⟩
    have number : ip.inum = (fs.inode i).inum := by
      rw [named]
    have cached : Cached sb fs.disk ip :=
      (table.cached held valid).congr number (by rw [named])
    obtain ⟨middle, run, image, cached', touches⟩ := itrunc_image sound.image cached
    have emptied : (dinode sb middle ip.inum).addrs = fun _ => 0 :=
      (congrArg Dinode.addrs cached'.same).symm
    obtain ⟨image', touches', own⟩ := image.replace { ip.truncated.toDinode with type := 0 }
      cached.inUse.2.1
      ⟨Nat.two_pow_pos 32, fun _ => Nat.two_pow_pos 32⟩
      (image.owned.replace_empty (fun _ => emptied) fun used => absurd rfl used)
      fun used => absurd rfl used
    have touched := touches.trans touches'
    refine ⟨(), fs.put i (writeDinode sb middle ip.inum { ip.truncated.toDinode with type := 0 })
      { fs.inode i with type := 0, size := 0, addrs := fun _ => 0, ref := 0, valid := false },
      ?_, ⟨image', ?_⟩, Or.inr ⟨one, valid, nlink, number ▸ touched, rfl, ?_⟩⟩
    · rw [iput]
      refine (if_pos ⟨one, valid, nlink⟩).trans ?_
      rw [if_neg (by rw [unlocked]; exact Bool.false_ne_true), ← named]
      refine (bind_of_ok run).trans ?_
      have same : { fs.inode i with
          type := 0, size := 0, addrs := fun _ => 0, ref := 0, valid := false } =
          { ip.truncated with type := 0, valid := false, lock := false, ref := ip.ref - 1 } := by
        rw [named, Inode.truncated]
        simp only [one, unlocked]
        rfl
      rw [same]
      rfl
    · refine table.step held (number ▸ touched) le_rfl ⟨rfl, rfl⟩
        (fun positive => absurd positive (lt_irrefl 0)) fun isLocked => ?_
      rw [unlocked] at isLocked
      cases isLocked
    · rw [← number]
      refine own.trans ?_
      rw [named]
      rfl
  · refine ⟨(), fs.setInode i { fs.inode i with ref := (fs.inode i).ref - 1 }, ?_, ⟨sound.image, ?_⟩,
      Or.inl ⟨last, rfl⟩⟩
    · rw [iput]
      exact if_neg last
    · refine table.setRef held (by omega) fun isLocked => ?_
      have := unshared isLocked
      omega

theorem iget_disk {dev : Nat} (run : iget dev inum fs = .ok (i, fs')) : fs'.disk = fs.disk := by
  rcases iget_ends run with ⟨-, -, -, rfl⟩ | ⟨-, -, rfl⟩
  · rfl
  · rfl

/-- `ialloc` takes the first free inode, zeroes it and hands out a reference. -/
theorem ialloc_ends (sound : fs.Sound sb) {type : Int16} {r : Option Ip}
    (run : ialloc sb ROOTDEV type fs = .ok (r, fs')) :
    (r = none ∧ fs' = fs ∧
      ∀ n, 0 < n → n < sb.ninodes → (dinode sb fs.disk n).type ≠ 0) ∨
    ∃ i inum after, r = some i ∧ 0 < inum ∧ inum < sb.ninodes ∧
      (dinode sb fs.disk inum).type = 0 ∧ Touches sb inum fs.disk after ∧
      dinode sb after inum = { Dinode.zero with type := type } ∧
      Fs.Sound sb { fs with disk := after } ∧
      iget ROOTDEV inum { fs with disk := after } = .ok (i, fs') := by
  rw [ialloc] at run
  dsimp only at run
  split at run
  · rename_i inum found
    obtain ⟨n, lower, upper, here, -⟩ := search_eq_some_iff.mp found
    split_ifs at here with free
    cases here
    have inside : inum < sb.ninodes := by omega
    obtain ⟨image, touches, own⟩ := sound.image.replace { Dinode.zero with type := type } inside
      ⟨Nat.two_pow_pos 32, fun _ => Nat.two_pow_pos 32⟩
      (sound.image.owned.replace_empty (fun inUse => absurd free inUse.2.2) fun _ => rfl)
      fun _ bn _ below => absurd below (Nat.not_lt_zero _)
    have table := sound.table.disk touches fun j held valid shared =>
      (sound.table.cached held valid).inUse.2.2 (shared ▸ free)
    obtain ⟨⟨i, final⟩, get, rest⟩ := bind_eq_ok.mp run
    cases rest
    exact Or.inr ⟨i, inum, _, rfl, lower, inside, free, touches, own, ⟨image, table⟩, get⟩
  · rename_i full
    cases run
    refine Or.inl ⟨rfl, rfl, fun n positive inside free => ?_⟩
    have none := search_eq_none_iff.mp full n positive (by omega)
    rw [if_pos free] at none
    cases none

section Locked

variable (sound : fs.Sound sb) (isLocked : (fs.inode i).lock = true)

include sound isLocked

theorem Fs.Sound.cached_of_locked : Cached sb fs.disk (fs.inode i) :=
  let ⟨held, valid⟩ := sound.table.locked isLocked
  sound.table.cached held valid

/-- A step on the locked inode `i` that keeps its entry up to date. -/
theorem Fs.Sound.step {after : Disk} {ip : Inode} (image : Image sb after)
    (touches : Touches sb (fs.inode i).inum fs.disk after) (cached : Cached sb after ip)
    (name : ip.dev = (fs.inode i).dev ∧ ip.inum = (fs.inode i).inum)
    (kept : ip.ref = (fs.inode i).ref ∧ ip.valid = (fs.inode i).valid) :
    (fs.put i after ip).Sound sb := by
  obtain ⟨held, valid⟩ := sound.table.locked isLocked
  exact ⟨image, sound.table.step held touches (by omega) name (fun _ _ => cached)
    fun _ => ⟨by omega, kept.2.trans valid⟩⟩

/-- `writei` on a locked inode. -/
theorem Fs.writei_spec (src : CopyIn) (off n : UInt32) :
    (Rejects (fs.inode i).size off n → Fs.writei sb i src off n fs = .ok (-1, fs)) ∧
    (¬ Rejects (fs.inode i).size off n → ∃ (after : Disk) (ip : Inode) (tot hi : Nat),
      Fs.writei sb i src off n fs = .ok ((tot : Int), fs.put i after ip) ∧
      Written sb src (fs.inode i) off.toNat n.toNat fs.disk after ip tot hi ∧
      (fs.put i after ip).Sound sb) := by
  obtain ⟨rejected, accepted⟩ :=
    FileSystem.writei_spec sound.image (sound.cached_of_locked isLocked) src off n
  constructor
  · intro rejects
    have same : fs.put i fs.disk (fs.inode i) = fs := by
      rw [Fs.put, Function.update_eq_self]
    refine (bind_of_ok (rejected rejects)).trans ?_
    exact congrArg (fun state => Except.ok (-1, state)) same
  · intro accepts
    obtain ⟨after, ip, tot, hi, run, written⟩ := accepted accepts
    refine ⟨after, ip, tot, hi, bind_of_ok run, written, ?_⟩
    refine sound.step isLocked written.image written.touches written.cached ?_ ?_
    · rw [written.change]
      exact ⟨rfl, rfl⟩
    · rw [written.change]
      exact ⟨rfl, rfl⟩

/-- `readi` on a locked inode. -/
theorem Fs.readi_spec (dst : CopyOut) (off n : UInt32) :
    (Fs.readi sb i dst off n fs = .error .bmapOutOfRange ∧
      MAXFILE * BSIZE < (fs.inode i).size) ∨
    ∃ r bytes, Fs.readi sb i dst off n fs = .ok ((r, bytes), fs) ∧
      ((r = readable (fs.inode i).size off n ∧
        bytes = ((content sb fs.disk (fs.inode i).inum).drop off.toNat).take
          (readable (fs.inode i).size off n)) ∨
      r = -1 ∧ ∃ t m, dst t m = true) := by
  rcases FileSystem.readi_spec sound.image (sound.cached_of_locked isLocked) dst off n with
    ⟨error, large⟩ | ⟨r, bytes, run, outcome⟩
  · exact Or.inl ⟨bind_of_error error, large⟩
  · have same : fs.put i fs.disk (fs.inode i) = fs := by
      rw [Fs.put, Function.update_eq_self]
    refine Or.inr ⟨r, bytes, (bind_of_ok run).trans ?_, outcome⟩
    exact congrArg (fun state => Except.ok ((r, bytes), state)) same

/-- `itrunc` on a locked inode. -/
theorem Fs.itrunc_spec : ∃ after,
    Fs.itrunc sb i fs = .ok ((), fs.put i after (fs.inode i).truncated) ∧
    Touches sb (fs.inode i).inum fs.disk after ∧
    (fs.put i after (fs.inode i).truncated).Sound sb := by
  obtain ⟨after, run, image, cached, touches⟩ :=
    itrunc_image sound.image (sound.cached_of_locked isLocked)
  exact ⟨after, bind_of_ok run, touches,
    sound.step isLocked image touches cached ⟨rfl, rfl⟩ ⟨rfl, rfl⟩⟩

end Locked

end Specs

end Csc3150.FileSystem
