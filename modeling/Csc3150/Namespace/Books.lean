/-
**Exact reference counts inside a call.**

`Books` is the ledger of a call (`Held`) with counts that are exact: the references of an entry are those
that the rest of the kernel uses and those that the call has in hand. With them go two facts about single
inodes (`Tidy`): no entry of a directory but "." and ".." names the directory itself, and the target of a
symbolic link is at most `limit` bytes long.

Every function says here what it does to the books; none sleeps on a lock (`Awake`).

* `Books.iput`, `Books.ialloc`, … — the functions on one inode;
* `Books.dirlink`, `Books.namex`, `Books.create` — the functions made of them.
-/

import Csc3150.Namespace.DirectoryMap
import Csc3150.Namespace.Ledger

namespace Csc3150.Namespace

open ByteBuffer FileSystem Outcome Program Search
open Program.Script (atomic)

/-! ### Tidy inodes -/

/-- What holds of the inode with this number, type and content. -/
structure Tidy (limit n : Nat) (type : Int16) (bytes : List UInt8) : Prop where
  plain : type = T_DIR → ∀ {k c}, entry bytes k = some (c, n) → c = key dot ∨ c = key dotdot
  short : type = T_SYMLINK → bytes.length ≤ limit

/-- Every allocated inode is tidy. -/
def TidyDisk (limit : Nat) (sb : Superblock) (disk : Disk) : Prop :=
  ∀ n, InUse sb (dinode sb disk) n → Tidy limit n (dinode sb disk n).type (content sb disk n)

theorem tidy_nil (limit n : Nat) (type : Int16) : Tidy limit n type [] where
  plain _ k c here := by
    have none : entry [] k = none := if_neg fun live => Nat.not_lt_zero k live.1
    rw [none] at here
    cases here
  short _ := Nat.zero_le limit

/-- Every allocated inode other than this one is tidy. -/
def TidyBut (limit : Nat) (sb : Superblock) (disk : Disk) (m : Nat) : Prop :=
  ∀ n, n ≠ m → InUse sb (dinode sb disk) n → Tidy limit n (dinode sb disk n).type (content sb disk n)

section Tidy

variable {limit : Nat} {sb : Superblock} {disk after : Disk} {m : Nat}

theorem TidyDisk.but (tidy : TidyDisk limit sb disk) (m : Nat) : TidyBut limit sb disk m :=
  fun n _ inUse => tidy n inUse

theorem TidyBut.all (tidy : TidyBut limit sb disk m)
    (own : InUse sb (dinode sb disk) m → Tidy limit m (dinode sb disk m).type (content sb disk m)) :
    TidyDisk limit sb disk := by
  intro n inUse
  by_cases isM : n = m
  · subst isM
    exact own inUse
  · exact tidy n isM inUse

theorem TidyBut.touches (tidy : TidyBut limit sb disk m) (touches : Touches sb m disk after)
    (bounded : Bounded sb disk) : TidyBut limit sb after m := by
  intro n other inUse
  have same := touches.inodes n inUse.2.1 other
  have inUse' : InUse sb (dinode sb disk) n := by
    unfold InUse at inUse
    rwa [same] at inUse
  rw [same, touches.content inUse' other (bounded n inUse')]
  exact tidy n other inUse'

/-- A step that touches one inode, seen from that inode. -/
theorem TidyDisk.touches (tidy : TidyDisk limit sb disk) (touches : Touches sb m disk after)
    (bounded : Bounded sb disk)
    (own : InUse sb (dinode sb after) m → Tidy limit m (dinode sb after m).type (content sb after m)) :
    TidyDisk limit sb after :=
  ((tidy.but m).touches touches bounded).all own

end Tidy

/-- A panic, and no wait for a lock. -/
def Awake (halt : Halt) : Prop := halt ≠ .asleep

/-! ### The books -/

/-- What the rest of the kernel has while a call is in progress: how often it refers to each entry, and
which entries it takes for files. -/
structure Rest where
  /-- The longest target of a symbolic link. -/
  limit : Nat
  uses : Ip → Int
  files : Ip → Prop

/-- Without a bound on targets. -/
def Rest.loose (rest : Rest) : Rest := { rest with limit := max rest.limit (MAXFILE * BSIZE) }

/-- The type on the disk of the inode that an entry stands for. -/
def diskType (sb : Superblock) (fs : Fs) (i : Ip) : Int16 := (dinode sb fs.disk (fs.inode i).inum).type

/-- The file system while a call has the references `held` and the locks `locks`. -/
structure Books (sb : Superblock) (rest : Rest) (held locks : List Ip) (fs : Fs) : Prop where
  ledger : Held sb held locks fs
  exact : ∀ i, (fs.inode i).ref = rest.uses i + held.count i
  tidy : TidyDisk rest.limit sb fs.disk
  files : ∀ i, rest.files i → 0 < rest.uses i ∧ diskType sb fs i ≠ 0 ∧ diskType sb fs i ≠ T_DIR

/-- The entry stands for the same inode as before, of the same type. -/
def Keeps (sb : Superblock) (fs fs' : Fs) (j : Ip) : Prop :=
  (fs'.inode j).inum = (fs.inode j).inum ∧ diskType sb fs' j = diskType sb fs j

section Keeps

variable {sb : Superblock} {fs middle fs' : Fs} {i j : Ip}

theorem Keeps.same (disk : fs'.disk = fs.disk) (number : (fs'.inode j).inum = (fs.inode j).inum) :
    Keeps sb fs fs' j := ⟨number, by rw [diskType, diskType, disk, number]⟩

theorem Keeps.trans (first : Keeps sb fs middle j) (second : Keeps sb middle fs' j) : Keeps sb fs fs' j :=
  ⟨second.1.trans first.1, second.2.trans first.2⟩

/-- A step on another inode. -/
theorem Keeps.touches {m : Nat} (touches : Touches sb m fs.disk fs'.disk)
    (number : (fs'.inode j).inum = (fs.inode j).inum) (inside : (fs.inode j).inum < sb.ninodes)
    (other : (fs.inode j).inum ≠ m) : Keeps sb fs fs' j := by
  refine ⟨number, ?_⟩
  rw [diskType, diskType, number, touches.inodes _ inside other]

end Keeps

namespace Books

variable {sb : Superblock} {rest : Rest} {held held' locks locks' : List Ip} {fs fs' : Fs} {i j dp : Ip}
  {limit n : Nat} {nm : Name} {type major minor : Int16}

theorem perm (here : Books sb rest held locks fs) (same : held.Perm held') (same' : locks.Perm locks') :
    Books sb rest held' locks' fs :=
  ⟨here.ledger.perm same same', fun i => same.count_eq i ▸ here.exact i, here.tidy, here.files⟩

theorem loosen (here : Books sb rest held locks fs) : Books sb rest.loose held locks fs :=
  ⟨here.ledger, here.exact, fun n inUse => ⟨(here.tidy n inUse).plain, fun link =>
    ((here.tidy n inUse).short link).trans (le_max_left _ _)⟩, here.files⟩

theorem tighten (here : Books sb rest.loose held locks fs) (tidy : TidyDisk rest.limit sb fs.disk) :
    Books sb rest held locks fs :=
  ⟨here.ledger, here.exact, tidy, here.files⟩

/-- Between the calls, the references are divided anew. -/
theorem divide {rest' : Rest} (here : Books sb rest held [] fs) (limit : rest'.limit = rest.limit)
    (total : ∀ j, rest'.uses j + held'.count j = rest.uses j + held.count j)
    (nonneg : ∀ j, 0 ≤ rest'.uses j)
    (files : ∀ j, rest'.files j → 0 < rest'.uses j ∧ diskType sb fs j ≠ 0 ∧ diskType sb fs j ≠ T_DIR) :
    Books sb rest' held' [] fs := by
  have exact : ∀ j, (fs.inode j).ref = rest'.uses j + held'.count j := fun j =>
    (here.exact j).trans (total j).symm
  refine ⟨⟨here.ledger.sound, here.ledger.formed, fun j => ?_, here.ledger.locked, List.nodup_nil,
    fun j member => absurd member List.not_mem_nil⟩, exact, limit ▸ here.tidy, files⟩
  rw [exact j]
  have positive := nonneg j
  omega

theorem unlocked (here : Books sb rest held locks fs) (free : i ∉ locks) : (fs.inode i).lock = false :=
  Bool.eq_false_of_not_eq_true fun isLocked => free ((here.ledger.locked i).mp isLocked)

theorem nonneg (here : Books sb rest held locks fs) (i : Ip) : 0 ≤ rest.uses i := by
  have total := here.ledger.refs i
  have count := here.exact i
  omega

/-- An entry that the call or the rest of the kernel refers to. -/
theorem ref_pos (here : Books sb rest held locks fs) (known : 0 < rest.uses i ∨ i ∈ held) :
    0 < (fs.inode i).ref := by
  have count := here.exact i
  rcases known with used | member
  · omega
  · exact here.ledger.ref_pos member

/-- The counts after a step on one entry. -/
theorem exact_put (here : Books sb rest held locks fs) {after : Disk} {ip : Inode}
    (ref : ip.ref = rest.uses i + held'.count i) (counts : ∀ j, j ≠ i → held'.count j = held.count j) :
    ∀ j, ((fs.put i after ip).inode j).ref = rest.uses j + held'.count j := by
  intro j
  by_cases isI : j = i
  · rw [isI, Fs.put_self]
    exact ref
  · rw [Fs.put_of_ne _ _ _ _ isI, counts j isI]
    exact here.exact j

/-- Entries that stand for inodes stand for inodes of their own. -/
theorem inum_ne (here : Books sb rest held locks fs) (known : 0 < (fs.inode i).ref)
    (known' : 0 < (fs.inode j).ref) (different : j ≠ i) : (fs.inode j).inum ≠ (fs.inode i).inum :=
  fun same => different (here.ledger.sound.table.unique known known' same)

/-- What the rest of the kernel takes for files, after a step that keeps allocated inodes. -/
theorem files_of_keeps (here : Books sb rest held locks fs)
    (keeps : ∀ j, 0 < rest.uses j → diskType sb fs j ≠ 0 → Keeps sb fs fs' j) :
    ∀ i, rest.files i → 0 < rest.uses i ∧ diskType sb fs' i ≠ 0 ∧ diskType sb fs' i ≠ T_DIR := by
  intro i file
  obtain ⟨used, allocated, notDir⟩ := here.files i file
  rw [(keeps i used allocated).2]
  exact ⟨used, allocated, notDir⟩

/-- A step on one entry that keeps its inode and the type of it. -/
theorem keeps_put (here : Books sb rest held locks fs) (member : i ∈ held) {after : Disk} {ip : Inode}
    (touches : Touches sb (fs.inode i).inum fs.disk after) (number : ip.inum = (fs.inode i).inum)
    (type : (dinode sb after (fs.inode i).inum).type = diskType sb fs i) (known : 0 < (fs.inode j).ref) :
    Keeps sb fs (fs.put i after ip) j := by
  by_cases isI : j = i
  · subst isI
    refine ⟨by rw [Fs.put_self, number], ?_⟩
    rw [← type, diskType, Fs.put_disk, Fs.put_self, number]
  · exact .touches touches (by rw [Fs.put_of_ne _ _ _ _ isI]) (here.ledger.sound.table.named known).2.2
      (here.inum_ne (here.ref_pos (Or.inr member)) known isI)

/-! ### References and locks -/

theorem iget (here : Books sb rest held locks fs) (positive : 0 < n) (inside : n < sb.ninodes) :
    Meets (FileSystem.iget ROOTDEV n) fs Awake fun i fs' => Books sb rest (i :: held) locks fs' ∧
      fs'.disk = fs.disk ∧ (fs'.inode i).inum = n ∧
      ∀ j, 0 < (fs.inode j).ref → (fs'.inode j).inum = (fs.inode j).inum := by
  refine ⟨fun i fs' run => ?_, fun error run => ?_⟩
  · have ledger := here.ledger.iget positive inside i fs' run
    have count := here.exact i
    have more : ∀ j, j ≠ i → (i :: held).count j = held.count j := fun j different =>
      List.count_cons_of_ne (Ne.symm different)
    have disk : fs'.disk = fs.disk := iget_disk run
    have numbers : ∀ j, 0 < (fs.inode j).ref → (fs'.inode j).inum = (fs.inode j).inum := by
      intro j known
      rcases iget_ends run with ⟨-, -, -, rfl⟩ | ⟨idle, -, rfl⟩
      · by_cases isI : j = i
        · rw [isI, Fs.setInode_self]
        · rw [Fs.setInode_of_ne _ _ _ isI]
      · rw [Fs.setInode_of_ne]
        rintro rfl
        omega
    have files := here.files_of_keeps fun j used _ => .same disk (numbers j (here.ref_pos (Or.inl used)))
    have tidy : TidyDisk rest.limit sb fs'.disk := disk ▸ here.tidy
    rcases iget_ends run with ⟨-, -, number, rfl⟩ | ⟨idle, -, rfl⟩
    · refine ⟨⟨ledger, here.exact_put ?_ more, tidy, files⟩, rfl, ?_, numbers⟩
      · rw [List.count_cons_self]
        push_cast
        omega
      · rw [Fs.setInode_self]
        exact number
    · refine ⟨⟨ledger, here.exact_put ?_ more, tidy, files⟩, rfl, ?_, numbers⟩
      · rw [List.count_cons_self]
        push_cast
        omega
      · rw [Fs.setInode_self]
  · rw [(iget_stops run).1]
    exact Halt.noConfusion

/-- A step on one entry that leaves the disk and the number alone. -/
theorem inum_setInode {ip : Inode} (number : ip.inum = (fs.inode i).inum) (j : Ip) :
    ((fs.setInode i ip).inode j).inum = (fs.inode j).inum := by
  by_cases isI : j = i
  · rw [isI, Fs.setInode_self, number]
  · rw [Fs.setInode_of_ne _ _ _ isI]

theorem idup (here : Books sb rest held locks fs) (member : i ∈ held) :
    Meets (FileSystem.idup i) fs Awake fun r fs' => r = i ∧ Books sb rest (i :: held) locks fs' ∧
      fs'.disk = fs.disk ∧ ∀ j, (fs'.inode j).inum = (fs.inode j).inum := by
  have count := here.exact i
  refine .of_ok rfl ⟨rfl, ⟨(here.ledger.idup member i _ rfl).2, here.exact_put ?_ fun j different =>
    List.count_cons_of_ne (Ne.symm different), here.tidy,
    here.files_of_keeps fun j _ _ => .same rfl (inum_setInode (by rfl) j)⟩, rfl, inum_setInode rfl⟩
  rw [List.count_cons_self]
  push_cast
  omega

theorem ilock (here : Books sb rest held locks fs) (member : i ∈ held) (free : i ∉ locks) :
    Meets (FileSystem.ilock sb i) fs Awake fun _ fs' => Books sb rest held (i :: locks) fs' ∧
      fs'.disk = fs.disk ∧ (∀ j, (fs'.inode j).inum = (fs.inode j).inum) ∧
      (fs'.inode i).type = diskType sb fs i := by
  refine ⟨fun _ fs' run => ?_, fun error run => ?_⟩
  · obtain ⟨-, ledger, isType⟩ := here.ledger.ilock member _ fs' run
    obtain ⟨-, -, -, rfl⟩ := ilock_ends here.ledger.sound.table run
    exact ⟨⟨ledger, here.exact_put (here.exact i) fun _ _ => rfl, here.tidy,
      here.files_of_keeps fun j _ _ => .same rfl (inum_setInode (by rfl) j)⟩, rfl, inum_setInode rfl, isType⟩
  · rw [FileSystem.ilock] at run
    dsimp only at run
    rw [here.unlocked free, if_neg (show ¬(false = true) from Bool.false_ne_true)] at run
    split_ifs at run <;> cases run <;> exact Halt.noConfusion

theorem iunlock (here : Books sb rest held (i :: locks) fs) :
    Meets (FileSystem.iunlock i) fs Awake fun _ fs' => Books sb rest held locks fs' ∧
      fs'.disk = fs.disk ∧ ∀ j, (fs'.inode j).inum = (fs.inode j).inum := by
  refine ⟨fun _ fs' run => ?_, fun error run => ?_⟩
  · obtain ⟨-, ledger⟩ := here.ledger.iunlock _ fs' run
    obtain ⟨-, -, rfl⟩ := iunlock_ends run
    exact ⟨⟨ledger, here.exact_put (here.exact i) fun _ _ => rfl, here.tidy,
      here.files_of_keeps fun j _ _ => .same rfl (inum_setInode (by rfl) j)⟩, rfl, inum_setInode rfl⟩
  · rw [FileSystem.iunlock] at run
    split_ifs at run
    cases run
    exact Halt.noConfusion

/-- The inodes that stay in use are kept. -/
theorem iput (here : Books sb rest (i :: held) locks fs) (kept : i ∈ locks → i ∈ held) :
    Meets (Namespace.iput sb i).run fs Awake fun _ fs' => Books sb rest held locks fs' ∧
      ∀ j ∈ held, Keeps sb fs fs' j := by
  have ledger := here.ledger.iput kept
  have pos := here.ledger.ref_pos (i := i) List.mem_cons_self
  have total := here.exact i
  rw [List.count_cons_self] at total
  push_cast at total
  have nonneg := here.nonneg i
  have unshared : (fs.inode i).lock = true → 1 < (fs.inode i).ref := fun isLocked => by
    have count := List.count_pos_iff.mpr (kept ((here.ledger.locked i).mp isLocked))
    omega
  have counts : ∀ j, j ≠ i → held.count j = (i :: held).count j := fun j different =>
    (List.count_cons_of_ne (Ne.symm different)).symm
  rw [run_iput] at ledger ⊢
  obtain ⟨r, fs', run, spec⟩ := iput_spec here.ledger.sound pos unshared
  refine .of_ok run ?_
  have ledger' := ledger r fs' run
  obtain ⟨-, ⟨-, rfl⟩ | ⟨one, -, -, touches, same, own⟩⟩ := spec
  · have keeps : ∀ j, Keeps sb fs (fs.setInode i { fs.inode i with ref := (fs.inode i).ref - 1 }) j :=
      fun j => .same rfl (inum_setInode (by rfl) j)
    exact ⟨⟨ledger', here.exact_put (show (fs.inode i).ref - 1 = _ by omega) counts, here.tidy,
      here.files_of_keeps fun j _ _ => keeps j⟩, fun j _ => keeps j⟩
  · have keeps : ∀ j, 0 < rest.uses j ∨ j ∈ held → Keeps sb fs fs' j := by
      intro j known
      have apart : j ≠ i := by
        rintro rfl
        rcases known with used | member
        · omega
        · have count := List.count_pos_iff.mpr member
          omega
      have known' := here.ref_pos (known.imp id (List.mem_cons_of_mem i))
      refine .touches touches ?_ (here.ledger.sound.table.named known').2.2 (here.inum_ne pos known' apart)
      rw [same, Fs.put_of_ne _ _ _ _ apart]
    refine ⟨⟨ledger', ?_, here.tidy.touches touches here.ledger.formed.bounded fun inUse => ?_,
      here.files_of_keeps fun j used _ => keeps j (Or.inl used)⟩, fun j member => keeps j (Or.inr member)⟩
    · rw [same]
      exact here.exact_put (show (0 : Int) = _ by omega) counts
    · refine absurd ?_ inUse.2.2
      rw [own]

theorem iunlockput (here : Books sb rest (i :: held) (i :: locks) fs) :
    Meets (Namespace.iunlockput sb i).run fs Awake fun _ fs' => Books sb rest held locks fs' ∧
      ∀ j ∈ held, Keeps sb fs fs' j := by
  have free := (List.nodup_cons.mp here.ledger.distinct).1
  refine .seq (.atomic here.iunlock) fun _ fs₁ unlocked => ?_
  obtain ⟨unlocked, disk, number⟩ := unlocked
  refine (unlocked.iput fun isLocked => absurd isLocked free).mono fun _ fs' dropped => ?_
  exact ⟨dropped.1, fun j member => (Keeps.same disk (number j)).trans (dropped.2 j member)⟩

theorem ialloc (here : Books sb rest held locks fs) :
    Meets (Namespace.ialloc sb ROOTDEV type).run fs Awake fun r fs' =>
      Books sb rest (r.toList ++ held) locks fs' ∧
        ∀ i, r = some i → i ∉ locks ∧ diskType sb fs' i = type := by
  have ledger : Ensures (Namespace.ialloc sb ROOTDEV type).run fs _ := here.ledger.ialloc
  rw [run_ialloc] at ledger ⊢
  refine ⟨fun r fs' run => ?_, fun error run => ?_⟩
  · have ledger' := ledger r fs' run
    rcases ialloc_ends here.ledger.sound run with ⟨rfl, rfl, -⟩ |
      ⟨i, n, after, rfl, positive, inside, free, touches, own, sound, got⟩
    · exact ⟨here, fun i impossible => by cases impossible⟩
    · have formed : Formed sb after := here.ledger.formed.touches touches fun _ => by
        rw [own, content, own]
        exact ⟨Nat.zero_le _, fun _ => wholeDir_nil sb⟩
      have tidy : TidyDisk rest.limit sb after :=
        here.tidy.touches touches here.ledger.formed.bounded fun _ => by
          rw [content, own]
          exact tidy_nil rest.limit n _
      -- an inode that is allocated is another one
      have keeps : ∀ j, 0 < rest.uses j → diskType sb fs j ≠ 0 → Keeps sb fs { fs with disk := after } j :=
        fun j used allocated => .touches touches rfl
          (here.ledger.sound.table.named (here.ref_pos (Or.inl used))).2.2
          fun same => allocated (by rw [diskType, same, free])
      have files := here.files_of_keeps keeps
      have claimed : Books sb rest held locks { fs with disk := after } :=
        ⟨⟨sound, formed, here.ledger.refs, here.ledger.locked, here.ledger.distinct,
          here.ledger.paired⟩, here.exact, tidy, files⟩
      obtain ⟨entered, -, number, -⟩ := (claimed.iget positive inside).ends i fs' got
      refine ⟨entered, fun j isI => ?_⟩
      cases isI
      refine ⟨fun isLocked => ?_, (ledger'.2 i rfl)⟩
      have inUse := (here.ledger.cached isLocked).inUse
      have same : (fs.inode i).inum = n := by
        have positive := here.ledger.ref_pos (here.ledger.paired i isLocked)
        rcases iget_ends got with ⟨-, -, number, -⟩ | ⟨idle, -, -⟩
        · exact number
        · have idle : (fs.inode i).ref = 0 := idle
          omega
      rw [same] at inUse
      exact inUse.2.2 free
  · rw [FileSystem.ialloc] at run
    dsimp only at run
    split at run
    · rcases bind_eq_error.mp run with stop | ⟨_, _, rest⟩
      · rw [(iget_stops stop).1]
        exact Halt.noConfusion
      · cases rest
    · cases run

/-! ### Locked inodes -/

section Locked

variable (here : Books sb rest held locks fs) (lock : i ∈ locks)

include here lock

/-- The copy of a locked inode has its type. -/
theorem diskType_eq : diskType sb fs i = (fs.inode i).type :=
  (congrArg Dinode.type (here.ledger.cached lock).same).symm

theorem itrunc : Meets (Fs.itrunc sb i) fs Awake fun _ fs' => Books sb rest held locks fs' ∧
    (fs'.inode i).type = (fs.inode i).type ∧ (fs'.inode i).inum = (fs.inode i).inum := by
  have isLocked := (here.ledger.locked i).mpr lock
  obtain ⟨after, run, touches, sound⟩ := Fs.itrunc_spec here.ledger.sound isLocked
  have cached := sound.cached_of_locked (i := i) (by rw [Fs.put_self]; exact isLocked)
  rw [Fs.put_self, Fs.put_disk] at cached
  have own : dinode sb after (fs.inode i).inum = (fs.inode i).truncated.toDinode := cached.same.symm
  have sameType : (dinode sb after (fs.inode i).inum).type = diskType sb fs i := by
    rw [own, here.diskType_eq lock]
    rfl
  refine .of_ok run ⟨⟨here.ledger.itrunc lock _ _ run, here.exact_put (here.exact i) fun _ _ => rfl,
    here.tidy.touches touches here.ledger.formed.bounded fun _ => ?_, here.files_of_keeps fun j used _ =>
      here.keeps_put (here.ledger.paired i lock) touches rfl sameType (here.ref_pos (Or.inl used))⟩, ?_, ?_⟩
  · rw [Fs.put_disk, content, own]
    exact tidy_nil rest.limit _ _
  · rw [Fs.put_self]
    rfl
  · rw [Fs.put_self]
    rfl

theorem readi (dst : CopyOut) (off n : UInt32) :
    Meets (Fs.readi sb i dst off n) fs Awake fun _ fs' => fs' = fs := by
  rcases Fs.readi_spec here.ledger.sound ((here.ledger.locked i).mpr lock) dst off n with
    ⟨error, -⟩ | ⟨r, bytes, run, -⟩
  · exact .of_error error Halt.noConfusion
  · exact .of_ok run rfl

/-- Writing to an inode that stays tidy. -/
theorem writei {src : CopyIn} {off n : UInt32} (dir : KeepsDir sb fs i src off n)
    (tidy : ∀ r fs', Fs.writei sb i src off n fs = .ok (r, fs') →
      Tidy rest.limit (fs.inode i).inum (fs.inode i).type (content sb fs'.disk (fs.inode i).inum)) :
    Meets (Fs.writei sb i src off n) fs Awake fun r fs' => Books sb rest held locks fs' ∧
      (fs'.inode i).type = (fs.inode i).type ∧ (fs'.inode i).inum = (fs.inode i).inum ∧
      r ≤ (fs'.inode i).size ∧ ∀ j, j ≠ i → fs'.inode j = fs.inode j := by
  obtain ⟨rejected, accepted⟩ := Fs.writei_spec here.ledger.sound ((here.ledger.locked i).mpr lock) src
    off n
  have ledger := here.ledger.writei lock dir
  by_cases rejects : Rejects (fs.inode i).size off n
  · refine .of_ok (rejected rejects) ⟨here, rfl, rfl, by omega, fun _ _ => rfl⟩
  · obtain ⟨after, ip, tot, hi, run, written, sound⟩ := accepted rejects
    obtain ⟨ledger', isType, stored⟩ := ledger _ _ run
    have change := written.change
    have number : ip.inum = (fs.inode i).inum := by
      rw [change]
    have sameType : (dinode sb after (fs.inode i).inum).type = (fs.inode i).type := by
      rw [← number, ← written.cached.same, change]
    refine .of_ok run ⟨⟨ledger', here.exact_put ?_ fun _ _ => rfl, here.tidy.touches written.touches
      here.ledger.formed.bounded fun _ => ?_, here.files_of_keeps fun j used _ =>
        here.keeps_put (here.ledger.paired i lock) written.touches number
          (sameType.trans (here.diskType_eq lock).symm) (here.ref_pos (Or.inl used))⟩,
      isType, ?_, stored, fun j different => Fs.put_of_ne _ _ _ _ different⟩
    · rw [change]
      exact here.exact i
    · rw [Fs.put_disk, sameType]
      exact tidy _ _ run
    · rw [Fs.put_self, number]

/-- Writing to an inode that is no directory: its size alone may have become untidy. -/
theorem writeFile (file : (fs.inode i).type ≠ T_DIR) (src : CopyIn) (off n : UInt32) :
    Meets (Fs.writei sb i src off n) fs Awake fun r fs' =>
      (r = -1 ∧ fs' = fs) ∨ (Books sb rest.loose held locks fs' ∧
        (fs'.inode i).type = (fs.inode i).type ∧ (fs'.inode i).inum = (fs.inode i).inum ∧
        TidyBut rest.limit sb fs'.disk (fs.inode i).inum ∧
        ∃ tot : Nat, r = tot ∧ tot ≤ n.toNat ∧
          (fs'.inode i).size = max (fs.inode i).size (off.toNat + tot)) := by
  have dir : KeepsDir sb fs i src off n := fun isDir => absurd isDir file
  obtain ⟨rejected, accepted⟩ := Fs.writei_spec here.ledger.sound ((here.ledger.locked i).mpr lock) src
    off n
  by_cases rejects : Rejects (fs.inode i).size off n
  · exact .of_ok (rejected rejects) (Or.inl ⟨rfl, rfl⟩)
  · obtain ⟨after, ip, tot, hi, run, written, -⟩ := accepted rejects
    have wrote := (here.loosen.writei lock dir fun r fs' ends => ?_).ends _ _ run
    · obtain ⟨wrote, sameType, number, -⟩ := wrote
      refine .of_ok run (Or.inr ⟨wrote, sameType, number,
        (here.tidy.but _).touches written.touches here.ledger.formed.bounded, tot, rfl, written.upper, ?_⟩)
      rw [Fs.put_self, written.change]
    · obtain ⟨ledger, -, -⟩ := here.ledger.writei lock dir r fs' ends
      refine ⟨fun isDir => absurd isDir file, fun _ => ?_⟩
      have cached := ledger.cached lock
      have number : (fs'.inode i).inum = (fs.inode i).inum := by
        rw [run] at ends
        cases ends
        rw [Fs.put_self, written.change]
      rw [content_length, ← number, ← cached.same]
      exact (ledger.size_le lock).trans (le_max_right _ _)

/-- Assigning to fields of a locked inode and writing it back, the blocks left alone. -/
theorem iupdate {dip : Dinode} (type : dip.type = (fs.inode i).type)
    (addrs : dip.addrs = (fs.inode i).addrs) (size : dip.size ≤ (fs.inode i).size)
    (dir : (fs.inode i).type = T_DIR → dip.size = (fs.inode i).size) :
    Meets (Fs.iupdate sb i) (fs.setInode i { fs.inode i with toDinode := dip }) Awake fun _ fs' =>
      Books sb rest held locks fs' ∧ (fs'.inode i).type = (fs.inode i).type ∧
        (fs'.inode i).inum = (fs.inode i).inum ∧ ∀ j, j ≠ i → fs'.inode j = fs.inode j := by
  have ledger := here.ledger.iupdate lock type addrs size dir
  have cached := here.ledger.cached lock
  have run : Fs.iupdate sb i (fs.setInode i { fs.inode i with toDinode := dip }) =
      .ok ((), fs.put i (writeDinode sb fs.disk (fs.inode i).inum dip)
        { fs.inode i with toDinode := dip }) := by
    rw [Fs.iupdate, Fs.setInode_self]
    rfl
  obtain ⟨ledger', sameType, others⟩ := ledger _ _ run
  obtain ⟨-, touches, own⟩ := here.ledger.writeBack lock type addrs size
  have bytes := content_writeDinode here.ledger.sound.image cached.inUse own (by rw [addrs, cached.same])
    (by rw [← cached.same]; exact size)
  have keepsType : (dinode sb (writeDinode sb fs.disk (fs.inode i).inum dip) (fs.inode i).inum).type =
      diskType sb fs i := by
    rw [own, here.diskType_eq lock, type]
  refine .of_ok run ⟨⟨ledger', here.exact_put (here.exact i) fun _ _ => rfl,
    here.tidy.touches touches here.ledger.formed.bounded fun _ => ?_, here.files_of_keeps fun j used _ =>
      here.keeps_put (here.ledger.paired i lock) touches rfl keepsType (here.ref_pos (Or.inl used))⟩,
    sameType, by rw [Fs.put_self], others⟩
  have tidy := here.tidy _ cached.inUse
  have length := content_length sb fs.disk (fs.inode i).inum
  rw [← cached.same] at tidy length
  rw [Fs.put_disk, own, bytes, type]
  refine ⟨fun isDir => ?_, fun isLink => ?_⟩
  · rw [dir isDir, ← length, List.take_length]
    exact tidy.plain isDir
  · rw [List.length_take]
    exact (min_le_right _ _).trans (tidy.short isLink)

/-- Cutting an inode that is no directory to a size that is tidy. -/
theorem cut {size : Nat} (file : (fs.inode i).type ≠ T_DIR) (fewer : size ≤ (fs.inode i).size)
    (short : size ≤ limit) (others : TidyBut limit sb fs.disk (fs.inode i).inum) :
    Meets (Fs.iupdate sb i) (fs.setInode i { fs.inode i with
      toDinode := { (fs.inode i).toDinode with size := size } }) Awake fun _ fs' =>
        Books sb rest held locks fs' ∧ TidyDisk limit sb fs'.disk := by
  have updated : Meets (Fs.iupdate sb i) (fs.setInode i { fs.inode i with
      toDinode := { (fs.inode i).toDinode with size := size } }) Awake _ :=
    here.iupdate lock rfl rfl fewer fun isDir => absurd isDir file
  have type : ({ (fs.inode i).toDinode with size := size } : Dinode).type = (fs.inode i).type := rfl
  obtain ⟨-, touches, own⟩ := here.ledger.writeBack lock type rfl fewer
  have tidy : TidyDisk limit sb (writeDinode sb fs.disk (fs.inode i).inum
      { (fs.inode i).toDinode with size := size }) := by
    refine (others.touches touches here.ledger.formed.bounded).all fun _ => ⟨fun isDir => ?_, fun _ => ?_⟩
    · rw [own] at isDir
      exact absurd isDir file
    · rw [content_length, own]
      exact short
  have cuts : Ensures (Fs.iupdate sb i) (fs.setInode i { fs.inode i with
      toDinode := { (fs.inode i).toDinode with size := size } }) fun _ fs' =>
        TidyDisk limit sb fs'.disk := by
    intro _ fs' run
    rw [Fs.iupdate, Fs.setInode_self] at run
    cases run
    exact tidy
  exact (updated.also cuts).mono fun _ fs' both => ⟨both.1.1, both.2⟩

end Locked

/-! ### Directories -/

section Directory

variable (here : Books sb rest held locks fs) (lock : dp ∈ locks)

include here lock

/-- `dirlookup` finds nothing, or takes a reference to the inode of an entry. -/
theorem dirlookup : Meets (Namespace.dirlookup sb dp nm).run fs Awake fun r fs' =>
    (fs.inode dp).type = T_DIR ∧ ((r = none ∧ fs' = fs) ∨
      ∃ i n k, r = some (i, direntSize * k) ∧
        lookup (content sb fs.disk (fs.inode dp).inum) (key nm) = some (n, k) ∧
        Books sb rest (i :: held) locks fs' ∧ fs'.disk = fs.disk ∧ (fs'.inode i).inum = n ∧
        ∀ j, 0 < (fs.inode j).ref → (fs'.inode j).inum = (fs.inode j).inum) := by
  by_cases isDir : (fs.inode dp).type = T_DIR
  · obtain ⟨dir, whole⟩ := here.ledger.openDir lock isDir
    have device : (fs.inode dp).dev = ROOTDEV := (here.ledger.sound.table.named dir.held).1
    refine .congr (run_dirlookup dir) ?_
    rw [device]
    cases found : lookup (content sb fs.disk (fs.inode dp).inum) (key nm) with
    | none => exact .pure ⟨isDir, Or.inl ⟨rfl, rfl⟩⟩
    | some both =>
      obtain ⟨n, k⟩ := both
      have isEntry := (lookup_eq_some.mp found).1
      refine .bind (here.iget (Nat.pos_of_ne_zero (entry_ne_zero isEntry)) (whole.inside isEntry))
        fun i fs' got => .pure ⟨isDir, Or.inr ?_⟩
      exact ⟨i, n, k, rfl, rfl, got⟩
  · refine .seq_run (a := fs.inode dp) rfl ?_
    rw [if_pos isDir]
    exact .atomic (.of_error rfl Halt.noConfusion)

/-- Storing an entry in a directory that stays tidy. -/
theorem storeDirent (isDir : (fs.inode dp).type = T_DIR) {data : List UInt8} {k : Nat}
    (width : data.length = direntSize)
    (start : k ≤ slots (content sb fs.disk (fs.inode dp).inum))
    (whole : WholeDir sb (overwrite (content sb fs.disk (fs.inode dp).inum) (direntSize * k) data))
    (plain : ∀ {j c}, entry (overwrite (content sb fs.disk (fs.inode dp).inum) (direntSize * k) data) j =
      some (c, (fs.inode dp).inum) → c = key dot ∨ c = key dotdot) :
    Meets (Fs.writei sb dp (.kernel data) (UInt32.ofNat (direntSize * k)) 16) fs Awake fun _ fs' =>
      Books sb rest held locks fs' ∧ (fs'.inode dp).type = T_DIR ∧
        ∀ j, j ≠ dp → fs'.inode j = fs.inode j := by
  obtain ⟨dir, whole'⟩ := here.ledger.openDir lock isDir
  have tidy := here.tidy _ (here.ledger.cached lock).inUse
  have type : (dinode sb fs.disk (fs.inode dp).inum).type = T_DIR := (here.diskType_eq lock).trans isDir
  have contents : ∀ r fs', Fs.writei sb dp (.kernel data) (UInt32.ofNat (direntSize * k)) 16 fs =
      .ok (r, fs') → content sb fs'.disk (fs.inode dp).inum = content sb fs.disk (fs.inode dp).inum ∨
      content sb fs'.disk (fs.inode dp).inum =
        overwrite (content sb fs.disk (fs.inode dp).inum) (direntSize * k) data := by
    intro r fs' run
    obtain ⟨r', fs'', run', same, stored⟩ := dir.store width start
    rw [run'] at run
    cases run
    rcases stored with ⟨-, rfl, -⟩ | ⟨-, -, -, after⟩ | ⟨-, -, -, -, -, after⟩
    · exact Or.inl rfl
    · exact Or.inr (same.inum dp ▸ after.stored)
    · exact Or.inl (same.inum dp ▸ after.stored)
  refine (here.writei lock (fun _ r fs' run => ?_) fun r fs' run => ?_).mono
    fun r fs' wrote => ⟨wrote.1, wrote.2.1.trans isDir, wrote.2.2.2.2⟩
  · rcases contents r fs' run with same | same
    · rw [same]
      exact whole'
    · rw [same]
      exact whole
  · rw [isDir]
    refine ⟨fun _ => ?_, fun isLink => absurd isLink (by decide)⟩
    rcases contents r fs' run with same | same
    · rw [same]
      exact tidy.plain type
    · rw [same]
      exact plain

/-- Zeroing an entry. -/
theorem clearDirent (isDir : (fs.inode dp).type = T_DIR) {k : Nat} {e : List UInt8 × Nat}
    (isEntry : entry (content sb fs.disk (fs.inode dp).inum) k = some e) :
    Meets (Fs.writei sb dp (.kernel (List.replicate direntSize 0)) (UInt32.ofNat (direntSize * k)) 16)
      fs Awake fun _ fs' => Books sb rest held locks fs' ∧ (fs'.inode dp).type = T_DIR ∧
        ∀ j, j ≠ dp → fs'.inode j = fs.inode j := by
  obtain ⟨-, whole⟩ := here.ledger.openDir lock isDir
  have tidy := here.tidy _ (here.ledger.cached lock).inUse
  have type : (dinode sb fs.disk (fs.inode dp).inum).type = T_DIR := (here.diskType_eq lock).trans isDir
  have inside := entry_lt isEntry
  have remain : ∀ {j c m}, entry (overwrite (content sb fs.disk (fs.inode dp).inum) (direntSize * k)
      (List.replicate direntSize 0)) j = some (c, m) →
      entry (content sb fs.disk (fs.inode dp).inum) j = some (c, m) := by
    intro j c m stays
    rw [entry_clear whole.whole inside] at stays
    by_cases cleared : j = k
    · rw [cleared, Function.update_self] at stays
      cases stays
    · rwa [Function.update_of_ne cleared] at stays
  exact here.storeDirent lock isDir List.length_replicate (le_of_lt inside)
    ⟨(slots_overwrite List.length_replicate whole.whole (le_of_lt inside)).1,
      fun stays => whole.inside (remain stays)⟩ fun stays => tidy.plain type (remain stays)

/-- `dirlink` keeps the books; when it succeeds, the other entries of the table are as before. -/
theorem dirlink (positive : 0 < n) (inside : n < sb.ninodes) (width : sb.ninodes ≤ 2 ^ 16)
    (plain : (fs.inode dp).type = T_DIR → key nm = key dot ∨ key nm = key dotdot ∨
      n ≠ (fs.inode dp).inum) :
    Meets (Namespace.dirlink sb dp nm n).run fs Awake fun r fs' => Books sb rest held locks fs' ∧
      (fs'.inode dp).type = T_DIR ∧ (¬ r < 0 → ∀ j, j ≠ dp → fs'.inode j = fs.inode j) := by
  refine .seq (here.dirlookup lock) fun r fs₁ found => ?_
  obtain ⟨isDir, ⟨rfl, rfl⟩ | ⟨i, m, k, rfl, -, entered, disk, -, number⟩⟩ := found
  · obtain ⟨dir, whole⟩ := here.ledger.openDir lock isDir
    have tidy := here.tidy _ (here.ledger.cached lock).inUse
    have type : (dinode sb fs₁.disk (fs₁.inode dp).inum).type = T_DIR :=
      (here.diskType_eq lock).trans isDir
    have entries : entry (addEntry (content sb fs₁.disk (fs₁.inode dp).inum) nm n) = _ :=
      entry_addEntry whole.whole positive (by omega)
    have store := here.storeDirent lock isDir (newDirent nm n).toBytes_length (freeSlot_le _)
      (whole.link positive inside width) fun {j c} isEntry => by
        change entry (addEntry _ nm n) j = _ at isEntry
        rw [entries] at isEntry
        by_cases new : j = freeSlot (content sb fs₁.disk (fs₁.inode dp).inum)
        · rw [new, Function.update_self] at isEntry
          obtain ⟨rfl, same⟩ := Prod.mk.inj (Option.some.inj isEntry)
          rcases plain isDir with isDot | isDotdot | other
          · exact Or.inl isDot
          · exact Or.inr isDotdot
          · exact absurd same other
        · rw [Function.update_of_ne new] at isEntry
          exact tidy.plain type isEntry
    refine .seq_run (a := fs₁.inode dp) rfl (.seq_run (run_empty dir) ?_)
    refine .seq (.atomic store) fun r fs₂ stored => ?_
    by_cases short : r ≠ direntSize
    · rw [if_pos short]
      exact .done ⟨stored.1, stored.2.1, fun _ => stored.2.2⟩
    · rw [if_neg short]
      exact .done ⟨stored.1, stored.2.1, fun _ => stored.2.2⟩
  · have member := here.ledger.paired dp lock
    refine .seq (entered.iput (here.ledger.paired i)) fun _ fs₂ dropped =>
      .done ⟨dropped.1, ?_, fun success => ?_⟩
    · have keeps := (Keeps.same disk (number dp (here.ledger.ref_pos member))).trans (dropped.2 dp member)
      rw [← dropped.1.diskType_eq lock, keeps.2, here.diskType_eq lock, isDir]
    · exact absurd (by decide) success

end Directory

/-! ### Paths -/

theorem namexEnd (here : Books sb rest (i :: held) [] fs) (parent : Bool) :
    Meets (Namespace.namexEnd sb parent i nm).run fs Awake fun r fs' =>
      Books sb rest (r.1.toList ++ held) [] fs' ∧ ∀ j ∈ held, Keeps sb fs fs' j := by
  rw [Namespace.namexEnd]
  by_cases isParent : parent = true
  · rw [if_pos isParent]
    exact .seq (here.iput fun isLocked => absurd isLocked List.not_mem_nil) fun _ fs' after =>
      .done after
  · rw [if_neg isParent]
    exact .done ⟨here, fun j _ => ⟨rfl, rfl⟩⟩

/-- The loop of `namex`. -/
theorem namexFrom (parent : Bool) (fuel : Nat) : ∀ {path nm i fs}, Books sb rest (i :: held) [] fs →
    Meets (Namespace.namexFrom sb parent fuel path i nm).run fs Awake fun r fs' =>
      Books sb rest (r.1.toList ++ held) [] fs' ∧ ∀ j ∈ held, Keeps sb fs fs' j := by
  induction fuel with
  | zero => exact fun here => here.namexEnd parent
  | succ fuel ih =>
    intro path nm i fs here
    rw [Namespace.namexFrom]
    cases skipped : skipelem path nm with
    | none => exact here.namexEnd parent
    | some next =>
      obtain ⟨rest, nm'⟩ := next
      dsimp only
      refine .seq (.atomic (here.ilock List.mem_cons_self List.not_mem_nil)) fun _ fs₁ locked => ?_
      obtain ⟨locked, disk, number, -⟩ := locked
      have first : ∀ j ∈ held, Keeps sb fs fs₁ j := fun j _ => .same disk (number j)
      refine .seq_run (a := fs₁.inode i) rfl ?_
      by_cases isDir : (fs₁.inode i).type = T_DIR
      · rw [if_neg (not_not.mpr isDir)]
        by_cases stop : parent = true ∧ rest.headD 0 = 0
        · rw [if_pos stop]
          refine .seq (.atomic locked.iunlock) fun _ fs₂ unlocked => .done ⟨unlocked.1, fun j member => ?_⟩
          exact (first j member).trans (.same unlocked.2.1 (unlocked.2.2 j))
        · rw [if_neg stop]
          refine .seq (locked.dirlookup List.mem_cons_self) fun r fs₂ found => ?_
          obtain ⟨-, ⟨rfl, rfl⟩ | ⟨m, n, k, rfl, -, entered, disk', -, number'⟩⟩ := found
          · exact .seq locked.iunlockput fun _ fs₃ after => .done ⟨after.1, fun j member =>
              (first j member).trans (after.2 j member)⟩
          · have second : ∀ j ∈ held, Keeps sb fs fs₂ j := fun j member =>
              (first j member).trans (.same disk'
                (number' j (locked.ledger.ref_pos (List.mem_cons_of_mem _ member))))
            have swapped := entered.perm (List.Perm.swap i m held) (List.Perm.refl _)
            refine .seq swapped.iunlockput fun _ fs₃ after => (ih after.1).mono fun r fs' done => ?_
            exact ⟨done.1, fun j member => ((second j member).trans
              (after.2 j (List.mem_cons_of_mem _ member))).trans (done.2 j member)⟩
      · rw [if_pos isDir]
        exact .seq locked.iunlockput fun _ fs₂ after => .done ⟨after.1, fun j member =>
          (first j member).trans (after.2 j member)⟩

theorem namex (here : Books sb rest held [] fs) (root : ROOTINO < sb.ninodes) {cwd : Ip}
    (member : cwd ∈ held) (parent : Bool) (path : List UInt8) :
    Meets (Namespace.namex sb cwd path parent nm).run fs Awake fun r fs' =>
      Books sb rest (r.1.toList ++ held) [] fs' ∧ ∀ j ∈ held, Keeps sb fs fs' j := by
  rw [Namespace.namex]
  by_cases absolute : path.headD 0 = slash
  · rw [if_pos absolute]
    refine .seq (.atomic (here.iget (by decide) root)) fun i fs₁ begun => ?_
    exact (begun.1.namexFrom parent _).mono fun r fs' done => ⟨done.1, fun j member =>
      (Keeps.same begun.2.1 (begun.2.2.2 j (here.ledger.ref_pos member))).trans (done.2 j member)⟩
  · rw [if_neg absolute]
    refine .seq (.atomic (here.idup member)) fun i fs₁ begun => ?_
    obtain ⟨rfl, begun, disk, number⟩ := begun
    exact (begun.namexFrom parent _).mono fun r fs' done => ⟨done.1, fun j member =>
      (Keeps.same disk (number j)).trans (done.2 j member)⟩

theorem namei (here : Books sb rest held [] fs) (root : ROOTINO < sb.ninodes) {cwd : Ip}
    (member : cwd ∈ held) (path : List UInt8) :
    Meets (Namespace.namei sb cwd path nm).run fs Awake fun r fs' => Books sb rest (r.toList ++ held) [] fs' :=
  .seq (here.namex root member false path) fun _ _ walked => .done walked.1

/-! ### `create` -/

theorem createDots (here : Books sb rest held locks fs) (lock : i ∈ locks) (member : dp ∈ held)
    (width : sb.ninodes ≤ 2 ^ 16) :
    Meets (Namespace.createDots sb i dp).run fs Awake fun _ fs' => Books sb rest held locks fs' ∧
      (fs'.inode i).type = T_DIR := by
  obtain ⟨positive, inside⟩ := here.ledger.inum_range (here.ledger.paired i lock)
  refine .seq_run (a := fs.inode i) rfl (.seq (here.dirlink lock positive inside width fun _ => Or.inl rfl)
    fun r fs₁ first => ?_)
  by_cases failed : r < 0
  · rw [if_pos failed]
    exact .done ⟨first.1, first.2.1⟩
  · rw [if_neg failed]
    obtain ⟨positive, inside⟩ := first.1.ledger.inum_range member
    exact .seq_run (a := fs₁.inode dp) rfl (.seq (first.1.dirlink lock positive inside width
      fun _ => Or.inr (Or.inl rfl)) fun r fs₂ second => .done ⟨second.1, second.2.1⟩)

theorem createFail (here : Books sb rest (i :: dp :: held) [i, dp] fs) :
    Meets (Namespace.createFail sb dp i).run fs Awake fun r fs' =>
      r = none ∧ Books sb rest held [] fs' := by
  refine .seq_run rfl (.seq (.atomic (here.iupdate List.mem_cons_self rfl rfl le_rfl fun _ => rfl))
    fun _ fs₁ updated => ?_)
  refine .seq updated.1.iunlockput fun _ fs₂ first => ?_
  exact .seq first.1.iunlockput fun _ fs₃ second => .done ⟨rfl, second.1⟩

/-- A locked inode, of the type that was asked for, or a file or a device that was found. -/
def Created (sb : Superblock) (rest : Rest) (held : List Ip) (type : Int16) (r : Option Ip)
    (fs : Fs) : Prop :=
  (r = none ∧ Books sb rest held [] fs) ∨ ∃ i, r = some i ∧ Books sb rest (i :: held) [i] fs ∧
    ((fs.inode i).type = type ∨
      type = T_FILE ∧ ((fs.inode i).type = T_FILE ∨ (fs.inode i).type = T_DEVICE))

/-- The end of `createNew`: the new inode is entered in the directory. -/
theorem createEnd (here : Books sb rest (i :: dp :: held) [i, dp] fs) (width : sb.ninodes ≤ 2 ^ 16)
    (apart : i ≠ dp) (typed : (fs.inode i).type = type) (made : Bool) :
    Meets (if made = false then Namespace.createFail sb dp i
      else do
        let ip ← atomic (inode i)
        let r ← Namespace.dirlink sb dp nm ip.inum
        if r < 0 then Namespace.createFail sb dp i
        else
          if type = T_DIR then
            atomic (assign dp fun d => { d with nlink := d.nlink + 1 })
            atomic (Fs.iupdate sb dp)
          Namespace.iunlockput sb dp
          return some i).run fs Awake (Created sb rest held type) := by
  have first : i ∈ i :: dp :: held := List.mem_cons_self
  have second : dp ∈ [i, dp] := List.mem_cons_of_mem _ List.mem_cons_self
  by_cases failed : made = false
  · rw [if_pos failed]
    exact here.createFail.mono fun r fs₅ after => Or.inl after
  · rw [if_neg failed]
    obtain ⟨positive, inside⟩ := here.ledger.inum_range first
    have other := here.inum_ne (here.ref_pos (Or.inr (here.ledger.paired dp second)))
      (here.ref_pos (Or.inr first)) apart
    refine .seq_run (a := fs.inode i) rfl (.seq (here.dirlink second positive inside width
      fun _ => Or.inr (Or.inr other)) fun r fs₁ linked => ?_)
    obtain ⟨linked, -, same⟩ := linked
    by_cases short : r < 0
    · rw [if_pos short]
      exact linked.createFail.mono fun r fs₂ after => Or.inl after
    · rw [if_neg short]
      have finish : ∀ {fs₂}, Books sb rest (i :: dp :: held) [i, dp] fs₂ → fs₂.inode i = fs₁.inode i →
          Meets (Namespace.iunlockput sb dp >>= fun _ => pure (some i)).run fs₂ Awake
            (Created sb rest held type) := by
        intro fs₂ last sameEntry
        have swapped := last.perm (List.Perm.swap dp i held) (List.Perm.swap dp i [])
        refine .seq (swapped.iunlockput.also iunlockput_entries) fun _ fs₃ after =>
          .done (Or.inr ⟨i, rfl, after.1.1, Or.inl ?_⟩)
        rw [after.2 i apart, sameEntry, same short i apart]
        exact typed
      by_cases isDir : type = T_DIR
      · rw [if_pos isDir]
        refine .seq_run rfl (.seq (.atomic (linked.iupdate second rfl rfl le_rfl fun _ => rfl))
          fun _ fs₂ counted => ?_)
        exact finish counted.1 (counted.2.2.2 i apart)
      · rw [if_neg isDir]
        exact finish linked rfl

theorem createNew (here : Books sb rest (dp :: held) [dp] fs) (width : sb.ninodes ≤ 2 ^ 16) :
    Meets (Namespace.createNew sb dp nm type major minor).run fs Awake (Created sb rest held type) := by
  have device : (fs.inode dp).dev = ROOTDEV :=
    (here.ledger.sound.table.named (here.ledger.ref_pos List.mem_cons_self)).1
  refine .seq_run (a := fs.inode dp) rfl ?_
  rw [device]
  refine .seq here.ialloc fun r fs₁ allocated => ?_
  obtain ⟨allocated, typed⟩ := allocated
  cases r with
  | none => exact .seq allocated.iunlockput fun _ fs₂ after => .done (Or.inl ⟨rfl, after.1⟩)
  | some i =>
    obtain ⟨free, typed⟩ := typed i rfl
    have apart : i ≠ dp := fun same => free (same ▸ List.mem_cons_self)
    refine .seq (.atomic (allocated.ilock List.mem_cons_self free)) fun _ fs₂ locked => ?_
    obtain ⟨locked, -, -, isType⟩ := locked
    rw [typed] at isType
    refine .seq_run rfl (.seq (.atomic (locked.iupdate List.mem_cons_self rfl rfl le_rfl fun _ => rfl))
      fun _ fs₃ updated => ?_)
    obtain ⟨updated, sameType, -⟩ := updated
    have parent : dp ∈ i :: dp :: held := List.mem_cons_of_mem _ List.mem_cons_self
    by_cases isDir : type = T_DIR
    · dsimp only
      rw [if_pos isDir]
      exact .seq (updated.createDots List.mem_cons_self parent width) fun made fs₄ dots =>
        dots.1.createEnd width apart (dots.2.trans isDir.symm) made
    · dsimp only
      rw [if_neg isDir]
      exact .seq_run (a := true) rfl (updated.createEnd width apart (sameType.trans isType) true)

theorem create (here : Books sb rest held [] fs) (root : ROOTINO < sb.ninodes)
    (width : sb.ninodes ≤ 2 ^ 16) {cwd : Ip} (member : cwd ∈ held) (path : List UInt8) :
    Meets (Namespace.create sb cwd path type major minor nm).run fs Awake (Created sb rest held type) := by
  refine .seq (here.namex root member true path) fun r fs₁ walked => ?_
  obtain ⟨r, nm'⟩ := r
  obtain ⟨walked, -⟩ := walked
  cases r with
  | none => exact .done (Or.inl ⟨rfl, walked⟩)
  | some dp =>
    refine .seq (.atomic (walked.ilock List.mem_cons_self List.not_mem_nil)) fun _ fs₂ locked => ?_
    obtain ⟨locked, -⟩ := locked
    refine .seq (locked.dirlookup List.mem_cons_self) fun r fs₃ found => ?_
    obtain ⟨-, ⟨rfl, rfl⟩ | ⟨i, n, k, rfl, -, entered, -⟩⟩ := found
    · exact locked.createNew width
    · have swapped := entered.perm (List.Perm.swap dp i held) (List.Perm.refl _)
      refine .seq swapped.iunlockput fun _ fs₄ dropped => ?_
      refine .seq (.atomic (dropped.1.ilock List.mem_cons_self List.not_mem_nil)) fun _ fs₅ relocked => ?_
      obtain ⟨relocked, -⟩ := relocked
      refine .seq_run (a := fs₅.inode i) rfl ?_
      by_cases opens : type = T_FILE ∧ ((fs₅.inode i).type = T_FILE ∨ (fs₅.inode i).type = T_DEVICE)
      · rw [if_pos opens]
        exact .done (Or.inr ⟨i, rfl, relocked, Or.inr opens⟩)
      · rw [if_neg opens]
        exact .seq relocked.iunlockput fun _ fs₆ after => .done (Or.inl ⟨rfl, after.1⟩)

end Books

end Csc3150.Namespace
