/-
**Runs of the inode layer: block ownership and file contents.**

The system is the disk with the inode table, and a step is one call of `iget`, `idup`, `ilock`,
`iunlock`, `iput`, `ialloc`, `readi`, `writei` or `itrunc` under the obligations that `fs.c` puts on
its callers (`Call.Legal`).

* `step_sound` — every call leaves a well-formed image under a coherent table;
* `block_ownership_exact` — from an image without holes, the marked data blocks are exactly the
  blocks that the inodes refer to, each once, in every reachable state, and no `bfree` panics;
* `contents_refine` — files are byte lists: `writei` overwrites a run, `itrunc` empties, `readi`
  delivers a run, and no call changes another file.
-/

import Csc3150.FileSystem.InodeTable
import Csc3150.Library.Transition

namespace Csc3150.FileSystem

open ByteBuffer Outcome Ownership Program Transition

/-- A call of the inode layer. -/
inductive Call where
  | iget (inum : Nat)
  | idup (ip : Ip)
  | ilock (ip : Ip)
  | iunlock (ip : Ip)
  | iput (ip : Ip)
  | ialloc (type : Int16)
  | readi (ip : Ip) (dst : CopyOut) (off n : UInt32)
  | writei (ip : Ip) (src : CopyIn) (off n : UInt32)
  | itrunc (ip : Ip)

/-- What a call does to the files, with the values it returns. -/
inductive Event where
  | quiet
  | allocated (inum : Nat)
  | truncated (inum : Nat)
  | read (inum : Nat) (dst : CopyOut) (off n : UInt32) (r : Int) (bytes : List UInt8)
  | wrote (inum : Nat) (src : CopyIn) (off n : UInt32) (r : Int)

/-- Perform a call. -/
def Call.exec (sb : Superblock) : Call → FsProg Event
  | .iget inum => do
    let _ ← FileSystem.iget ROOTDEV inum
    return .quiet
  | .idup ip => do
    let _ ← FileSystem.idup ip
    return .quiet
  | .ilock ip => do
    FileSystem.ilock sb ip
    return .quiet
  | .iunlock ip => do
    FileSystem.iunlock ip
    return .quiet
  | .iput ip => do
    let entry := (← get).inode ip
    FileSystem.iput sb ip
    if entry.ref = 1 ∧ entry.valid ∧ entry.nlink = 0 then return .truncated entry.inum
    else return .quiet
  | .ialloc type => do
    match ← FileSystem.ialloc sb ROOTDEV type with
    | some ip => return .allocated ((← get).inode ip).inum
    | none => return .quiet
  | .readi ip dst off n => do
    let entry := (← get).inode ip
    let (r, bytes) ← Fs.readi sb ip dst off n
    return .read entry.inum dst off n r bytes
  | .writei ip src off n => do
    let entry := (← get).inode ip
    let r ← Fs.writei sb ip src off n
    return .wrote entry.inum src off n r
  | .itrunc ip => do
    let entry := (← get).inode ip
    Fs.itrunc sb ip
    return .truncated entry.inum

/-- What `fs.c` asks of the caller: inode numbers of the image, a reference to what is passed on or
dropped, the lock of an inode whose content is used. -/
def Call.Legal (sb : Superblock) (fs : Fs) : Call → Prop
  | .iget inum => 0 < inum ∧ inum < sb.ninodes
  | .idup ip => 0 < (fs.inode ip).ref
  | .ilock _ | .iunlock _ => True
  | .iput ip => 0 < (fs.inode ip).ref ∧ ((fs.inode ip).lock = true → 1 < (fs.inode ip).ref)
  | .ialloc type => type ≠ 0
  | .readi ip _ _ _ | .writei ip _ _ _ | .itrunc ip => (fs.inode ip).lock = true

instance (sb : Superblock) (fs : Fs) : (call : Call) → Decidable (call.Legal sb fs)
  | .iget inum => inferInstanceAs (Decidable (0 < inum ∧ inum < sb.ninodes))
  | .idup ip => inferInstanceAs (Decidable (0 < (fs.inode ip).ref))
  | .ilock _ | .iunlock _ => inferInstanceAs (Decidable True)
  | .iput ip => inferInstanceAs (Decidable
      (0 < (fs.inode ip).ref ∧ ((fs.inode ip).lock = true → 1 < (fs.inode ip).ref)))
  | .ialloc type => inferInstanceAs (Decidable (type ≠ 0))
  | .readi ip _ _ _ | .writei ip _ _ _ | .itrunc ip =>
    inferInstanceAs (Decidable ((fs.inode ip).lock = true))

/-- A legal call that returns. -/
def Step (sb : Superblock) (fs : Fs) (label : Call × Event) (fs' : Fs) : Prop :=
  label.1.Legal sb fs ∧ label.1.exec sb fs = .ok (label.2, fs')

section Step

variable {sb : Superblock} {fs fs' : Fs} {event : Event} {i : Ip}

/-! ### What a call is -/

theorem exec_iput (run : (Call.iput i).exec sb fs = .ok (event, fs')) :
    iput sb i fs = .ok ((), fs') ∧
      event = if (fs.inode i).ref = 1 ∧ (fs.inode i).valid = true ∧ (fs.inode i).nlink = 0
        then .truncated (fs.inode i).inum else .quiet := by
  obtain ⟨entry, middle, first, rest⟩ := bind_ends.mp run
  cases first
  obtain ⟨⟨⟩, last, put, rest⟩ := bind_ends.mp rest
  split_ifs at rest ⊢ with freed <;> cases rest <;> exact ⟨put, rfl⟩

theorem exec_ialloc {type : Int16} (run : (Call.ialloc type).exec sb fs = .ok (event, fs')) :
    ∃ r, ialloc sb ROOTDEV type fs = .ok (r, fs') ∧
      event = r.elim .quiet fun ip => .allocated (fs'.inode ip).inum := by
  obtain ⟨r, middle, first, rest⟩ := bind_ends.mp run
  cases r with
  | none =>
    cases rest
    exact ⟨none, first, rfl⟩
  | some ip =>
    obtain ⟨state, last, second, rest⟩ := bind_ends.mp rest
    cases second
    cases rest
    exact ⟨some ip, first, rfl⟩

theorem exec_readi {dst : CopyOut} {off n : UInt32}
    (run : (Call.readi i dst off n).exec sb fs = .ok (event, fs')) :
    ∃ r bytes, Fs.readi sb i dst off n fs = .ok ((r, bytes), fs') ∧
      event = .read (fs.inode i).inum dst off n r bytes := by
  obtain ⟨entry, middle, first, rest⟩ := bind_ends.mp run
  cases first
  obtain ⟨⟨r, bytes⟩, last, second, rest⟩ := bind_ends.mp rest
  cases rest
  exact ⟨r, bytes, second, rfl⟩

theorem exec_writei {src : CopyIn} {off n : UInt32}
    (run : (Call.writei i src off n).exec sb fs = .ok (event, fs')) :
    ∃ r, Fs.writei sb i src off n fs = .ok (r, fs') ∧
      event = .wrote (fs.inode i).inum src off n r := by
  obtain ⟨entry, middle, first, rest⟩ := bind_ends.mp run
  cases first
  obtain ⟨r, last, second, rest⟩ := bind_ends.mp rest
  cases rest
  exact ⟨r, second, rfl⟩

theorem exec_itrunc (run : (Call.itrunc i).exec sb fs = .ok (event, fs')) :
    Fs.itrunc sb i fs = .ok ((), fs') ∧ event = .truncated (fs.inode i).inum := by
  obtain ⟨entry, middle, first, rest⟩ := bind_ends.mp run
  cases first
  obtain ⟨⟨⟩, last, second, rest⟩ := bind_ends.mp rest
  cases rest
  exact ⟨second, rfl⟩

theorem exec_iget {inum : Nat} (run : (Call.iget inum).exec sb fs = .ok (event, fs')) :
    ∃ i, iget ROOTDEV inum fs = .ok (i, fs') ∧ event = .quiet := by
  obtain ⟨i, middle, first, rest⟩ := bind_ends.mp run
  cases rest
  exact ⟨i, first, rfl⟩

theorem exec_idup (run : (Call.idup i).exec sb fs = .ok (event, fs')) :
    idup i fs = .ok (i, fs') ∧ event = .quiet := by
  obtain ⟨j, middle, first, rest⟩ := bind_ends.mp run
  cases rest
  cases first
  exact ⟨rfl, rfl⟩

theorem exec_ilock (run : (Call.ilock i).exec sb fs = .ok (event, fs')) :
    ilock sb i fs = .ok ((), fs') ∧ event = .quiet := by
  obtain ⟨⟨⟩, middle, first, rest⟩ := bind_ends.mp run
  cases rest
  exact ⟨first, rfl⟩

theorem exec_iunlock (run : (Call.iunlock i).exec sb fs = .ok (event, fs')) :
    iunlock i fs = .ok ((), fs') ∧ event = .quiet := by
  obtain ⟨⟨⟩, middle, first, rest⟩ := bind_ends.mp run
  cases rest
  exact ⟨first, rfl⟩

/-! ### What a step does -/

/-- The inode of the event and nothing else has changed, as the event says. -/
def Effect (sb : Superblock) (fs fs' : Fs) : Event → Prop
  | .quiet => fs'.disk = fs.disk
  | .allocated n => Touches sb n fs.disk fs'.disk ∧ (dinode sb fs'.disk n).size = 0 ∧
      InUse sb (dinode sb fs'.disk) n
  | .truncated n => Touches sb n fs.disk fs'.disk ∧ (dinode sb fs'.disk n).size = 0
  | .read n dst off len r bytes => fs' = fs ∧ InUse sb (dinode sb fs.disk) n ∧
      ((r = readable (dinode sb fs.disk n).size off len ∧
        bytes = ((content sb fs.disk n).drop off.toNat).take
          (readable (dinode sb fs.disk n).size off len)) ∨
      r = -1 ∧ ∃ t m, dst t m = true)
  | .wrote n src off len r => InUse sb (dinode sb fs.disk) n ∧
      ((Rejects (dinode sb fs.disk n).size off len ∧ r = -1 ∧ fs' = fs) ∨
      (¬ Rejects (dinode sb fs.disk n).size off len ∧ ∃ (ip ip' : Inode) (tot hi : Nat),
        r = tot ∧ ip.inum = n ∧ Cached sb fs.disk ip ∧
        Written sb src ip off.toNat len.toNat fs.disk fs'.disk ip' tot hi))

/-- Every legal call keeps the file system sound and does what its event says. -/
theorem step_effect {call : Call} (sound : fs.Sound sb) (step : Step sb fs (call, event) fs') :
    fs'.Sound sb ∧ Effect sb fs fs' event := by
  obtain ⟨legal, run⟩ := step
  dsimp only at legal run
  cases call with
  | iget inum =>
    obtain ⟨i, get, rfl⟩ := exec_iget run
    exact ⟨iget_sound sound legal.1 legal.2 get, iget_disk get⟩
  | idup i =>
    obtain ⟨dup, rfl⟩ := exec_idup run
    refine ⟨idup_sound sound legal dup, ?_⟩
    cases dup
    rfl
  | ilock i =>
    obtain ⟨lock, rfl⟩ := exec_ilock run
    obtain ⟨-, -, -, rfl⟩ := ilock_ends sound.table lock
    exact ⟨ilock_sound sound lock, rfl⟩
  | iunlock i =>
    obtain ⟨unlock, rfl⟩ := exec_iunlock run
    refine ⟨iunlock_sound sound unlock, ?_⟩
    obtain ⟨-, -, rfl⟩ := iunlock_ends unlock
    rfl
  | iput i =>
    obtain ⟨put, rfl⟩ := exec_iput run
    obtain ⟨sound', kept | freed⟩ := (iput_spec sound legal.1 legal.2).ensures _ _ put
    · obtain ⟨notLast, rfl⟩ := kept
      rw [if_neg notLast]
      exact ⟨sound', rfl⟩
    · obtain ⟨one, valid, nlink, touches, -, own⟩ := freed
      rw [if_pos ⟨one, valid, nlink⟩]
      exact ⟨sound', touches, by rw [own]⟩
  | ialloc type =>
    obtain ⟨r, alloc, rfl⟩ := exec_ialloc run
    rcases ialloc_ends sound alloc with ⟨rfl, rfl, -⟩ |
      ⟨i, inum, after, rfl, positive, inside, -, touches, own, sound', get⟩
    · exact ⟨sound, rfl⟩
    · have same : fs'.disk = after := iget_disk get
      have number : (fs'.inode i).inum = inum := by
        rcases iget_ends get with ⟨-, -, number, rfl⟩ | ⟨-, -, rfl⟩
        · rw [Fs.setInode_self]
          exact number
        · rw [Fs.setInode_self]
      refine ⟨iget_sound sound' positive inside get, ?_⟩
      rw [Option.elim_some, number, Effect, same]
      refine ⟨touches, by rw [own]; rfl, positive, inside, ?_⟩
      rw [own]
      exact legal
  | readi i dst off n =>
    obtain ⟨r, bytes, read, rfl⟩ := exec_readi run
    have cached := sound.cached_of_locked legal
    rcases Fs.readi_spec sound legal dst off n with ⟨error, -⟩ | ⟨r', bytes', ok, outcome⟩
    · rw [error] at read
      cases read
    · rw [ok] at read
      cases read
      rw [cached.same] at outcome
      exact ⟨sound, rfl, cached.inUse, outcome⟩
  | writei i src off n =>
    obtain ⟨r, write, rfl⟩ := exec_writei run
    have cached := sound.cached_of_locked legal
    have size : (fs.inode i).size = (dinode sb fs.disk (fs.inode i).inum).size :=
      congrArg Dinode.size cached.same
    obtain ⟨rejected, accepted⟩ := Fs.writei_spec sound legal src off n
    by_cases rejects : Rejects (fs.inode i).size off n
    · rw [rejected rejects] at write
      cases write
      exact ⟨sound, cached.inUse, Or.inl ⟨size ▸ rejects, rfl, rfl⟩⟩
    · obtain ⟨after, ip, tot, hi, ok, written, sound'⟩ := accepted rejects
      rw [ok] at write
      cases write
      exact ⟨sound', cached.inUse, Or.inr ⟨size ▸ rejects, _, ip, tot, hi, rfl, rfl, cached, written⟩⟩
  | itrunc i =>
    obtain ⟨trunc, rfl⟩ := exec_itrunc run
    have cached := sound.cached_of_locked legal
    obtain ⟨after, ok, touches, sound'⟩ := Fs.itrunc_spec sound legal
    rw [ok] at trunc
    cases trunc
    obtain ⟨held, valid⟩ := sound.table.locked legal
    have own : (fs.inode i).truncated.toDinode = dinode sb after (fs.inode i).inum := by
      have cached' := sound'.table.cached (i := i) (by rw [Fs.put_self]; exact held)
        (by rw [Fs.put_self]; exact valid)
      rw [Fs.put_self] at cached'
      exact cached'.same
    exact ⟨sound', touches, (congrArg Dinode.size own).symm⟩

theorem step_sound (sound : fs.Sound sb) {label : Call × Event} (step : Step sb fs label fs') :
    fs'.Sound sb :=
  (step_effect sound step).1

/-- A legal call never frees a free block. -/
theorem exec_ne_freeing {call : Call} (sound : fs.Sound sb) (legal : call.Legal sb fs) :
    call.exec sb fs ≠ .error .freeingFreeBlock := by
  intro run
  have get {inum : Nat} {fs : Fs} (stops : iget ROOTDEV inum fs = .error .freeingFreeBlock) :
      False := nomatch (iget_stops stops).1
  cases call with
  | iget inum =>
    rcases bind_stops.mp run with stops | ⟨_, _, -, stops⟩
    · exact get stops
    · cases stops
  | idup i => cases run
  | ilock i =>
    rcases bind_stops.mp run with stops | ⟨_, _, -, stops⟩
    · rw [ilock] at stops
      dsimp only at stops
      split_ifs at stops <;> cases stops
    · cases stops
  | iunlock i =>
    rcases bind_stops.mp run with stops | ⟨_, _, -, stops⟩
    · rw [iunlock] at stops
      split_ifs at stops
      cases stops
    · cases stops
  | iput i =>
    rcases bind_stops.mp run with stops | ⟨_, _, first, stops⟩
    · cases stops
    · cases first
      obtain ⟨⟨⟩, after, ok, -⟩ := iput_spec sound legal.1 legal.2
      rcases bind_stops.mp stops with stops | ⟨_, _, -, stops⟩
      · rw [ok] at stops
        cases stops
      · split_ifs at stops <;> cases stops
  | ialloc type =>
    rcases bind_stops.mp run with stops | ⟨r, _, -, stops⟩
    · rw [ialloc] at stops
      dsimp only at stops
      split at stops
      · rcases bind_eq_error.mp stops with stops | ⟨_, -, stops⟩
        · exact get stops
        · cases stops
      · cases stops
    · cases r with
      | none => cases stops
      | some ip => cases stops
  | readi i dst off n =>
    rcases bind_stops.mp run with stops | ⟨_, _, first, stops⟩
    · cases stops
    · cases first
      rcases Fs.readi_spec sound legal dst off n with ⟨error, -⟩ | ⟨r, bytes, ok, -⟩
      · rcases bind_stops.mp stops with stops | ⟨_, _, ok, -⟩
        · rw [error] at stops
          cases stops
        · rw [error] at ok
          cases ok
      · rcases bind_stops.mp stops with stops | ⟨_, _, -, stops⟩
        · rw [ok] at stops
          cases stops
        · cases stops
  | writei i src off n =>
    rcases bind_stops.mp run with stops | ⟨_, _, first, stops⟩
    · cases stops
    · cases first
      obtain ⟨rejected, accepted⟩ := Fs.writei_spec sound legal src off n
      rcases bind_stops.mp stops with stops | ⟨_, _, -, stops⟩
      · by_cases rejects : Rejects (fs.inode i).size off n
        · rw [rejected rejects] at stops
          cases stops
        · obtain ⟨_, _, _, _, ok, -⟩ := accepted rejects
          rw [ok] at stops
          cases stops
      · cases stops
  | itrunc i =>
    rcases bind_stops.mp run with stops | ⟨_, _, first, stops⟩
    · cases stops
    · cases first
      obtain ⟨_, ok, -⟩ := Fs.itrunc_spec sound legal
      rcases bind_stops.mp stops with stops | ⟨_, _, -, stops⟩
      · rw [ok] at stops
        cases stops
      · cases stops

end Step

/-! ### Block ownership over runs -/

/-- Every non-zero block number that an allocated inode reaches lies in the data area, none occurs
twice, and the marked data blocks are the ones that occur; the metadata is marked. -/
structure BlocksExact (sb : Superblock) (disk : Disk) : Prop where
  metadata : ∀ b, b < sb.dataStart → marked sb disk b = true
  inside : ∀ n slot, InUse sb (dinode sb disk) n →
    pointer disk (dinode sb disk n).addrs slot ≠ 0 →
    sb.dataStart ≤ pointer disk (dinode sb disk n).addrs slot ∧
      pointer disk (dinode sb disk n).addrs slot < sb.size
  once : ∀ n slot n' slot', InUse sb (dinode sb disk) n → InUse sb (dinode sb disk) n' →
    pointer disk (dinode sb disk n).addrs slot ≠ 0 →
    pointer disk (dinode sb disk n').addrs slot' = pointer disk (dinode sb disk n).addrs slot →
    n' = n ∧ slot' = slot
  marks : ∀ b, sb.dataStart ≤ b → b < sb.size → (marked sb disk b = true ↔
    ∃ n slot, InUse sb (dinode sb disk) n ∧ b ≠ 0 ∧ pointer disk (dinode sb disk n).addrs slot = b)

theorem blocksExact_iff {sb : Superblock} {disk : Disk} :
    BlocksExact sb disk ↔ Owned sb disk (dinode sb disk) := by
  constructor
  · intro exact
    refine ⟨exact.metadata, ?_, ?_⟩
    · rintro ⟨n, slot⟩ ⟨n', slot'⟩ b held held'
      obtain ⟨inUse, rfl, nonzero⟩ := reference_eq_some.mp held
      obtain ⟨inUse', same, -⟩ := reference_eq_some.mp held'
      obtain ⟨rfl, rfl⟩ := exact.once n slot n' slot' inUse inUse' nonzero same
      rfl
    · intro b
      constructor
      · rintro ⟨lower, upper, set⟩
        obtain ⟨n, slot, inUse, nonzero, holds⟩ := (exact.marks b lower upper).mp set
        exact ⟨(n, slot), reference_eq_some.mpr ⟨inUse, holds, nonzero⟩⟩
      · rintro ⟨⟨n, slot⟩, held⟩
        obtain ⟨inUse, rfl, nonzero⟩ := reference_eq_some.mp held
        obtain ⟨lower, upper⟩ := exact.inside n slot inUse nonzero
        exact ⟨lower, upper, (exact.marks _ lower upper).mpr ⟨n, slot, inUse, nonzero, rfl⟩⟩
  · intro owned
    refine ⟨owned.metadata, fun n slot inUse nonzero => ⟨owned.lower inUse nonzero,
      owned.upper inUse nonzero⟩, fun n slot n' slot' inUse inUse' nonzero same =>
      owned.unique inUse inUse' nonzero same, fun b lower upper => ⟨fun set => ?_, ?_⟩⟩
    · obtain ⟨⟨n, slot⟩, held⟩ := (owned.exact.live_iff b).mp ⟨lower, upper, set⟩
      obtain ⟨inUse, holds, nonzero⟩ := reference_eq_some.mp held
      exact ⟨n, slot, inUse, nonzero, holds⟩
    · rintro ⟨n, slot, inUse, nonzero, rfl⟩
      exact owned.used inUse nonzero

/-- The kernel after `fsinit` and `iinit`: the disk, and a table of idle entries. -/
def Fs.boot (disk : Disk) : Fs where
  disk := disk
  inode _ :=
    { Dinode.zero with dev := 0, inum := 0, ref := 0, lock := false, valid := false }

theorem Fs.boot_sound {sb : Superblock} {disk : Disk} (layout : sb.WellFormed)
    (exact : BlocksExact sb disk) (filled : NoHoles sb disk) : (Fs.boot disk).Sound sb where
  image := ⟨layout, blocksExact_iff.mp exact, filled⟩
  table :=
    { ref_nonneg := fun _ => le_rfl
      named := fun positive => absurd positive (lt_irrefl 0)
      unique := fun positive => absurd positive (lt_irrefl 0)
      cached := fun positive => absurd positive (lt_irrefl 0)
      locked := nofun }

/-- **Block ownership is exact** in every state that the inode layer reaches from a well-formed
image without holes, and no legal call frees a free block. -/
theorem block_ownership_exact {sb : Superblock} {disk : Disk} {trace : List (Call × Event)}
    {fs : Fs} (layout : sb.WellFormed) (exact : BlocksExact sb disk) (filled : NoHoles sb disk)
    (run : Run (Step sb) (Fs.boot disk) trace fs) :
    BlocksExact sb fs.disk ∧
      (∀ i, 0 < (fs.inode i).ref → (fs.inode i).valid = true →
        (fs.inode i).toDinode = dinode sb fs.disk (fs.inode i).inum) ∧
      ∀ call : Call, call.Legal sb fs → call.exec sb fs ≠ .error .freeingFreeBlock := by
  have sound : fs.Sound sb := run.invariant (fun _ _ _ sound step => step_sound sound step)
    (Fs.boot_sound layout exact filled)
  exact ⟨blocksExact_iff.mpr sound.image.owned,
    fun i held valid => (sound.table.cached held valid).same,
    fun _ legal => exec_ne_freeing sound legal⟩

/-! ### File contents over runs -/

instance (sb : Superblock) (inodes : Nat → Dinode) (n : Nat) : Decidable (InUse sb inodes n) :=
  inferInstanceAs (Decidable (0 < n ∧ n < sb.ninodes ∧ (inodes n).type ≠ 0))

/-- The files as byte lists; a free inode has no bytes. -/
def Fs.contents (sb : Superblock) (fs : Fs) (n : Nat) : List UInt8 :=
  if InUse sb (dinode sb fs.disk) n then content sb fs.disk n else []

/-- No file is larger than the largest file. -/
def Bounded (sb : Superblock) (disk : Disk) : Prop :=
  ∀ n, InUse sb (dinode sb disk) n → (dinode sb disk n).size ≤ MAXFILE * BSIZE

/-- The effect of a call on byte lists, with the values it must return. -/
def Admits (files : Nat → List UInt8) : Event → (Nat → List UInt8) → Prop
  | .quiet, files' => files' = files
  | .allocated n, files' => files' = Function.update files n []
  | .truncated n, files' => files' = Function.update files n []
  | .read n dst off len r bytes, files' => files' = files ∧
      ((r = bytes.length ∧ bytes =
        if 2 ^ 32 ≤ off.toNat + len.toNat then [] else ((files n).drop off.toNat).take len.toNat) ∨
      r = -1 ∧ ∃ t m, dst t m = true)
  | .wrote n src off len r, files' =>
      (Rejects (files n).length off len ∧ r = -1 ∧ files' = files) ∨
      (¬ Rejects (files n).length off len ∧ ∃ tot : Nat, r = tot ∧ tot ≤ len.toNat ∧
        files' = Function.update files n (overwrite (files n) off.toNat (src.bytes 0 tot)))

/-- The copies out of this call's source succeed. -/
def Call.CopiesIn : Call → Prop
  | .writei _ src _ _ => ∀ tot m, src.fault tot m = none
  | _ => True

section Contents

variable {sb : Superblock} {fs fs' : Fs} {n : Nat}

theorem fileBytes_getElem? (disk : Disk) (addrs : Fin (NDIRECT + 2) → Nat) (off count k : Nat) :
    (fileBytes disk addrs off count)[k]? =
      if k < count then some (fileByte disk addrs (off + k)) else none := by
  rw [fileBytes, List.getElem?_map]
  by_cases inside : k < count
  · rw [List.getElem?_range inside, if_pos inside, Option.map_some]
  · rw [List.getElem?_eq_none (by rw [List.length_range]; omega), if_neg inside, Option.map_none]

theorem contents_of_inUse (inUse : InUse sb (dinode sb fs.disk) n) :
    fs.contents sb n = content sb fs.disk n := if_pos inUse

/-- A step on inode `n` changes the bytes of file `n` alone. -/
theorem Touches.contents (touches : Touches sb n fs.disk fs'.disk) (bounded : Bounded sb fs.disk)
    {bytes : List UInt8} (own : fs'.contents sb n = bytes) :
    fs'.contents sb = Function.update (fs.contents sb) n bytes := by
  funext m
  by_cases isN : m = n
  · rw [isN, own, Function.update_self]
  · rw [Function.update_of_ne isN]
    have used : InUse sb (dinode sb fs'.disk) m ↔ InUse sb (dinode sb fs.disk) m :=
      InUse.congr fun inside => by rw [touches.inodes m inside isN]
    by_cases inUse : InUse sb (dinode sb fs.disk) m
    · rw [contents_of_inUse inUse, contents_of_inUse (used.mpr inUse)]
      exact touches.content inUse isN (bounded m inUse)
    · exact (if_neg (mt used.mp inUse)).trans (if_neg inUse).symm

theorem Touches.bounded (touches : Touches sb n fs.disk fs'.disk) (bounded : Bounded sb fs.disk)
    (own : (dinode sb fs'.disk n).size ≤ MAXFILE * BSIZE) : Bounded sb fs'.disk := by
  intro m inUse
  by_cases isN : m = n
  · rwa [isN]
  · have same := touches.inodes m inUse.2.1 isN
    rw [same]
    refine bounded m ?_
    unfold InUse at inUse
    rwa [same] at inUse

/-- A `writei` whose copies succeed overwrites the bytes it reports, and no others. -/
theorem Written.content_eq {src : CopyIn} {ip ip' : Inode} {off len tot hi : Nat} {disk after : Disk}
    (written : Written sb src ip off len disk after ip' tot hi) (cached : Cached sb disk ip)
    (copies : ∀ tot m, src.fault tot m = none) (start : off ≤ ip.size)
    (bound : ip.size ≤ MAXFILE * BSIZE) (room : off + len ≤ MAXFILE * BSIZE) :
    content sb after ip.inum = overwrite (content sb disk ip.inum) off (src.bytes 0 tot) := by
  have upper := written.upper
  have exactly : hi = off + tot := by
    rcases Nat.eq_or_lt_of_le upper with all | less
    · exact written.complete all
    · rcases written.stopped less with ⟨-, exactly⟩ | ⟨stored, fault, -⟩
      · exact exactly
      · rw [copies] at fault
        cases fault
  have number : ip'.inum = ip.inum := by
    rw [written.change]
  have size : ip'.size = max ip.size (off + tot) := by
    rw [written.change]
  have cached' := written.cached
  have own : dinode sb after ip.inum = ip'.toDinode := by
    rw [cached'.same, number]
  have length : (content sb disk ip.inum).length = ip.size := by
    rw [content_length, cached.same]
  have bytesLength : (src.bytes 0 tot).length = tot := read_length _ _ _
  refine List.ext_getElem? fun k => ?_
  rw [overwrite_getElem? (by omega), bytesLength, FileSystem.content, FileSystem.content,
    fileBytes_getElem?, fileBytes_getElem?, own, ← cached.same, Nat.zero_add]
  by_cases below : k < ip'.size
  · rw [if_pos below, written.bytes k (by omega), exactly]
    by_cases inside : off ≤ k ∧ k < off + tot
    · rw [if_pos inside, if_pos inside]
      have here := read_getElem? src.byte 0 (show k - off < tot by omega)
      rw [Nat.zero_add] at here
      exact here.symm
    · rw [if_neg inside, if_neg inside, if_pos (by omega)]
  · rw [if_neg below, if_neg (by omega), if_neg (by omega)]

/-- Every call has the effect on byte lists that `Admits` allows, and keeps the sizes bounded. -/
theorem step_admits {call : Call} {event : Event} (sound : fs.Sound sb)
    (bounded : Bounded sb fs.disk) (copies : call.CopiesIn) (step : Step sb fs (call, event) fs') :
    Bounded sb fs'.disk ∧ Admits (fs.contents sb) event (fs'.contents sb) := by
  have src_copies : ∀ {n src off len r}, event = .wrote n src off len r →
      ∀ tot m, src.fault tot m = none := by
    rintro n src off len r rfl
    obtain ⟨-, run⟩ := step
    cases call with
    | writei i source off' len' =>
      obtain ⟨r, -, same⟩ := exec_writei run
      cases same
      exact copies
    | iget inum => exact nomatch (exec_iget run).choose_spec.2
    | idup i => exact nomatch (exec_idup run).2
    | ilock i => exact nomatch (exec_ilock run).2
    | iunlock i => exact nomatch (exec_iunlock run).2
    | iput i =>
      have same := (exec_iput run).2
      split_ifs at same
    | ialloc type =>
      obtain ⟨r, -, same⟩ := exec_ialloc run
      cases r <;> cases same
    | readi i dst off' len' =>
      obtain ⟨_, _, -, same⟩ := exec_readi run
      cases same
    | itrunc i => exact nomatch (exec_itrunc run).2
  obtain ⟨sound', effect⟩ := step_effect sound step
  cases event with
  | quiet =>
    have same : fs'.disk = fs.disk := effect
    have contents : fs'.contents sb = fs.contents sb := by
      funext n
      rw [Fs.contents, Fs.contents, same]
    exact ⟨same ▸ bounded, contents⟩
  | allocated n =>
    obtain ⟨touches, size, inUse⟩ := effect
    refine ⟨touches.bounded bounded (size ▸ Nat.zero_le _), touches.contents bounded ?_⟩
    rw [contents_of_inUse inUse, content, size]
    rfl
  | truncated n =>
    obtain ⟨touches, size⟩ := effect
    refine ⟨touches.bounded bounded (size ▸ Nat.zero_le _), touches.contents bounded ?_⟩
    rw [Fs.contents]
    split_ifs
    · rw [content, size]
      rfl
    · rfl
  | read n dst off len r bytes =>
    obtain ⟨rfl, inUse, outcome⟩ := effect
    refine ⟨bounded, rfl, outcome.imp_left ?_⟩
    rintro ⟨rfl, rfl⟩
    rw [contents_of_inUse inUse, List.length_take, List.length_drop, content_length, readable]
    by_cases wraps : 2 ^ 32 ≤ off.toNat + len.toNat
    · rw [if_pos (Or.inr wraps), if_pos wraps]
      exact ⟨by simp, List.take_zero⟩
    · rw [if_neg wraps]
      by_cases beyond : (dinode sb fs'.disk n).size < off.toNat
      · rw [if_pos (Or.inl beyond)]
        refine ⟨by simp, ?_⟩
        rw [List.take_zero, List.drop_eq_nil_of_le (by rw [content_length]; omega), List.take_nil]
      · rw [if_neg (by omega)]
        refine ⟨by omega, ?_⟩
        rw [List.take_eq_take_iff, List.length_drop, content_length]
        omega
  | wrote n src off len r =>
    obtain ⟨inUse, rejected | accepted⟩ := effect
    · obtain ⟨rejects, rfl, rfl⟩ := rejected
      refine ⟨bounded, Or.inl ⟨?_, rfl, rfl⟩⟩
      rwa [contents_of_inUse inUse, content_length]
    · obtain ⟨accepts, ip, ip', tot, hi, rfl, rfl, cached, written⟩ := accepted
      have old := bounded ip.inum inUse
      have sameSize : ip.size = (dinode sb fs.disk ip.inum).size := congrArg Dinode.size cached.same
      have checks := accepts
      unfold Rejects at checks
      have number : ip'.inum = ip.inum := by
        rw [written.change]
      have own : (dinode sb fs'.disk ip.inum).size = ip'.size := by
        rw [← number, written.cached.same]
      have size : ip'.size = max ip.size (off.toNat + tot) := by
        rw [written.change]
      have upper := written.upper
      have content' := written.content_eq cached (src_copies rfl) (by omega) (by omega) (by omega)
      refine ⟨written.touches.bounded bounded (by omega), Or.inr ⟨?_, tot, rfl, upper, ?_⟩⟩
      · rwa [contents_of_inUse inUse, content_length]
      · refine written.touches.contents bounded ?_
        rw [contents_of_inUse inUse, ← content']
        exact contents_of_inUse (number ▸ written.cached.inUse)

/-- **File contents refine a byte array.** From a well-formed file system, every run of calls whose
source copies succeed is a run of byte lists with the same values returned; and in every state it
reaches, a call on a locked inode returns: `readi` and `itrunc` always, `writei` with -1 and without
any change when it turns the request down, and otherwise with all of `n` unless the disk is full. -/
theorem contents_refine {trace : List (Call × Event)} (sound : fs.Sound sb)
    (bounded : Bounded sb fs.disk)
    (run : Run (fun fs label fs' => Step sb fs label fs' ∧ label.1.CopiesIn) fs trace fs') :
    Run (fun files label files' => Admits files label.2 files')
      (fs.contents sb) trace (fs'.contents sb) ∧
    ∀ i, (fs'.inode i).lock = true →
      (∀ dst off n, ∃ r bytes, Fs.readi sb i dst off n fs' = .ok ((r, bytes), fs')) ∧
      (∃ after, Fs.itrunc sb i fs' = .ok ((), after)) ∧
      ∀ src off n, (∀ tot m, src.fault tot m = none) →
        (Rejects (fs'.contents sb (fs'.inode i).inum).length off n →
          Fs.writei sb i src off n fs' = .ok (-1, fs')) ∧
        (¬ Rejects (fs'.contents sb (fs'.inode i).inum).length off n → ∃ (tot : Nat) (after : Fs),
          Fs.writei sb i src off n fs' = .ok ((tot : Int), after) ∧ tot ≤ n.toNat ∧
          (tot = n.toNat ∨ Full sb after.disk)) := by
  have preserved : ∀ (fs : Fs) (label : Call × Event) (fs' : Fs),
      fs.Sound sb ∧ Bounded sb fs.disk → Step sb fs label fs' ∧ label.1.CopiesIn →
      fs'.Sound sb ∧ Bounded sb fs'.disk :=
    fun _ _ _ holds step => ⟨step_sound holds.1 step.1, (step_admits holds.1 holds.2 step.2 step.1).1⟩
  obtain ⟨sound', bounded'⟩ := run.invariant preserved ⟨sound, bounded⟩
  refine ⟨run.simulate preserved
    (fun _ _ _ holds step => (step_admits holds.1 holds.2 step.2 step.1).2) ⟨sound, bounded⟩,
    fun i isLocked => ?_⟩
  have cached := sound'.cached_of_locked isLocked
  have size : (fs'.inode i).size = (dinode sb fs'.disk (fs'.inode i).inum).size :=
    congrArg Dinode.size cached.same
  rw [contents_of_inUse cached.inUse, content_length, ← size]
  refine ⟨fun dst off n => ?_, ?_, fun src off n copies => ?_⟩
  · rcases Fs.readi_spec sound' isLocked dst off n with ⟨-, large⟩ | ⟨r, bytes, ok, -⟩
    · have := bounded' _ cached.inUse
      omega
    · exact ⟨r, bytes, ok⟩
  · obtain ⟨after, ok, -⟩ := Fs.itrunc_spec sound' isLocked
    exact ⟨_, ok⟩
  · obtain ⟨rejected, accepted⟩ := Fs.writei_spec sound' isLocked src off n
    refine ⟨rejected, fun accepts => ?_⟩
    obtain ⟨after, ip, tot, hi, ok, written, -⟩ := accepted accepts
    refine ⟨tot, _, ok, written.upper, ?_⟩
    rcases Nat.eq_or_lt_of_le written.upper with all | less
    · exact Or.inl all
    · rcases written.stopped less with ⟨full, -⟩ | ⟨stored, fault, -⟩
      · exact Or.inr full
      · rw [copies] at fault
        cases fault

end Contents

/-! ### A small image -/

/-- Five blocks: boot block, super block, one block of inodes, the free bit map, one data block. -/
def smallSuperblock : Superblock :=
  { size := 5, nblocks := 1, ninodes := 2, inodestart := 2, bmapstart := 3 }

/-- The small image, its metadata marked, with one file of `size` bytes and no blocks. -/
def smallDisk (size : Nat) : Disk :=
  let metadata : Disk := fun b i => if b = 3 ∧ i = 0 then 15 else 0
  writeDinode smallSuperblock metadata 1 { Dinode.zero with type := T_FILE, nlink := 1, size := size }

/-- Perform legal calls in order. -/
def replay (sb : Superblock) : List Call → Fs → Option Fs
  | [], fs => some fs
  | call :: rest, fs =>
    if call.Legal sb fs then
      match call.exec sb fs with
      | .ok (_, fs') => replay sb rest fs'
      | .error _ => none
    else none

theorem run_of_replay {sb : Superblock} {calls : List Call} {fs fs' : Fs}
    (replayed : replay sb calls fs = some fs') :
    ∃ trace, trace.map Prod.fst = calls ∧ Run (Step sb) fs trace fs' := by
  induction calls generalizing fs with
  | nil =>
    cases replayed
    exact ⟨[], rfl, .nil _⟩
  | cons call rest ih =>
    rw [replay] at replayed
    split_ifs at replayed with legal
    split at replayed
    · rename_i event middle run
      obtain ⟨trace, same, rest⟩ := ih replayed
      exact ⟨(call, event) :: trace, congrArg _ same, .cons ⟨legal, run⟩ rest⟩
    · cases replayed

theorem smallSuperblock_wellFormed : smallSuperblock.WellFormed := by
  refine ⟨fun inum inside => ?_, fun b inside => ?_, by decide⟩
  · have small : inum < 2 := inside
    interval_cases inum <;> decide
  · have small : b < 5 := inside
    interval_cases b <;> decide

theorem dinode_smallDisk {size : Nat} (fits : size < 2 ^ 32) :
    dinode smallSuperblock (smallDisk size) 1 =
      { Dinode.zero with type := T_FILE, nlink := 1, size := size } :=
  dinode_writeDinode_self _ _ _ ⟨fits, fun _ => Nat.two_pow_pos 32⟩

/-- The only inode of the small image. -/
theorem inUse_small {inodes : Nat → Dinode} {n : Nat} (inUse : InUse smallSuperblock inodes n) :
    n = 1 := by
  have lower := inUse.1
  have upper : n < 2 := inUse.2.1
  omega

theorem marked_smallDisk (size : Nat) {b : Nat} (small : b < 5) :
    marked smallSuperblock (smallDisk size) b = decide (b < 4) := by
  have bitmap : smallDisk size 3 = fun i => if 3 = 3 ∧ i = 0 then 15 else 0 := by
    rw [smallDisk, writeDinode, logWrite_of_ne _ _ (by decide)]
  have place : BBLOCK b smallSuperblock = 3 := by
    interval_cases b <;> decide
  rw [marked, place, bitmap]
  interval_cases b <;> decide

theorem blocksExact_smallDisk {size : Nat} (fits : size < 2 ^ 32) :
    BlocksExact smallSuperblock (smallDisk size) := by
  have unreferenced : ∀ n slot, InUse smallSuperblock (dinode smallSuperblock (smallDisk size)) n →
      pointer (smallDisk size) (dinode smallSuperblock (smallDisk size) n).addrs slot = 0 := by
    intro n slot inUse
    rw [inUse_small inUse, dinode_smallDisk fits]
    exact pointer_zero _ _
  refine ⟨fun b metadata => ?_, fun n slot inUse nonzero => ?_,
    fun n slot _ _ inUse _ nonzero _ => ?_, fun b lower upper => ?_⟩
  · have small : b < 4 := metadata
    rw [marked_smallDisk size (by omega), decide_eq_true small]
  · exact absurd (unreferenced n slot inUse) nonzero
  · exact absurd (unreferenced n slot inUse) nonzero
  · have small : b < 5 := upper
    have large : 4 ≤ b := lower
    rw [marked_smallDisk size small, decide_eq_true_eq]
    refine ⟨fun less => by omega, fun ⟨n, slot, inUse, nonzero, holds⟩ => ?_⟩
    rw [unreferenced n slot inUse] at holds
    exact absurd holds.symm nonzero

theorem noHoles_smallDisk : NoHoles smallSuperblock (smallDisk 0) := by
  intro n inUse bn _ below
  rw [inUse_small inUse, dinode_smallDisk (Nat.two_pow_pos 32)] at below
  exact absurd below (Nat.not_lt_zero _)

/-- The first entry of the inode table. -/
def firstIp : Ip := ⟨0, by decide⟩

theorem bounded_smallDisk : Bounded smallSuperblock (smallDisk 0) := by
  intro n inUse
  rw [inUse_small inUse, dinode_smallDisk (Nat.two_pow_pos 32)]
  exact Nat.zero_le _

/-- Two writes, the second on a disk that fills up, and a read. -/
theorem contents_refine_small :
    ∃ (trace : List (Call × Event)) (fs : Fs), trace.map Prod.fst =
        [.iget 1, .ilock firstIp, .writei firstIp (.kernel [7, 8, 9]) 0 3,
          .writei firstIp ⟨fun _ => 1, fun _ _ => none⟩ 3 1023,
          .readi firstIp (fun _ _ => false) 1 4] ∧
      Run (fun files label files' => Admits files label.2 files')
        ((Fs.boot (smallDisk 0)).contents smallSuperblock) trace (fs.contents smallSuperblock) := by
  have replayed : (replay smallSuperblock [.iget 1, .ilock firstIp,
      .writei firstIp (.kernel [7, 8, 9]) 0 3,
      .writei firstIp ⟨fun _ => 1, fun _ _ => none⟩ 3 1023,
      .readi firstIp (fun _ _ => false) 1 4] (Fs.boot (smallDisk 0))).isSome := by
    decide +kernel
  obtain ⟨fs, reached⟩ := Option.isSome_iff_exists.mp replayed
  obtain ⟨trace, calls, run⟩ := run_of_replay reached
  have copies : ∀ label ∈ trace, label.1.CopiesIn := by
    intro label member
    have called := List.mem_map_of_mem (f := Prod.fst) member
    rw [calls] at called
    generalize label.1 = call at called
    fin_cases called <;> first | trivial | exact fun _ _ => rfl
  exact ⟨trace, fs, calls, (contents_refine (Fs.boot_sound smallSuperblock_wellFormed
    (blocksExact_smallDisk (Nat.two_pow_pos 32)) noHoles_smallDisk) bounded_smallDisk
    (run.guard copies)).1⟩

/-- Writes to the file, one of them from a bad address and one on a full disk, then its truncation
and the last `iput`. -/
theorem block_ownership_exact_small :
    ∃ (trace : List (Call × Event)) (fs : Fs), trace.map Prod.fst =
        [.iget 1, .ilock firstIp, .writei firstIp (.kernel [7, 8, 9]) 0 3,
          .writei firstIp ⟨fun _ => 1, fun _ _ => some 1⟩ 2 5,
          .writei firstIp ⟨fun _ => 1, fun _ _ => none⟩ 3 1023,
          .itrunc firstIp, .iunlock firstIp, .iput firstIp] ∧
      Run (Step smallSuperblock) (Fs.boot (smallDisk 0)) trace fs ∧
      BlocksExact smallSuperblock fs.disk := by
  have replayed : (replay smallSuperblock [.iget 1, .ilock firstIp,
      .writei firstIp (.kernel [7, 8, 9]) 0 3,
      .writei firstIp ⟨fun _ => 1, fun _ _ => some 1⟩ 2 5,
      .writei firstIp ⟨fun _ => 1, fun _ _ => none⟩ 3 1023,
      .itrunc firstIp, .iunlock firstIp, .iput firstIp] (Fs.boot (smallDisk 0))).isSome := by
    decide +kernel
  obtain ⟨fs, reached⟩ := Option.isSome_iff_exists.mp replayed
  obtain ⟨trace, calls, run⟩ := run_of_replay reached
  exact ⟨trace, fs, calls, run, (block_ownership_exact smallSuperblock_wellFormed
    (blocksExact_smallDisk (Nat.two_pow_pos 32)) noHoles_smallDisk run).1⟩

/-- **A hole leaks a block.** Reading a file whose only block is a hole allocates the block in the
in-memory copy alone; once the entry is dropped, the block is marked and nothing refers to it. -/
theorem hole_leaks_block :
    smallSuperblock.WellFormed ∧ BlocksExact smallSuperblock (smallDisk 1) ∧
      ∃ trace fs, Run (Step smallSuperblock) (Fs.boot (smallDisk 1)) trace fs ∧
        ¬ BlocksExact smallSuperblock fs.disk := by
  refine ⟨smallSuperblock_wellFormed, blocksExact_smallDisk (by decide), ?_⟩
  have replayed : (replay smallSuperblock [.iget 1, .ilock firstIp,
      .readi firstIp (fun _ _ => false) 0 1, .iunlock firstIp, .iput firstIp]
      (Fs.boot (smallDisk 1))).any fun fs => marked smallSuperblock fs.disk 4 &&
        decide (∀ k, (dinode smallSuperblock fs.disk 1).addrs k = 0) := by
    decide +kernel
  rw [Option.any_eq_true] at replayed
  obtain ⟨fs, reached, leaked⟩ := replayed
  rw [Bool.and_eq_true, decide_eq_true_eq] at leaked
  obtain ⟨trace, -, run⟩ := run_of_replay reached
  refine ⟨trace, fs, run, fun exact => ?_⟩
  obtain ⟨n, slot, inUse, -, holds⟩ := (exact.marks 4 (by decide) (by decide)).mp leaked.1
  rw [inUse_small inUse, funext leaked.2, pointer_zero] at holds
  exact absurd holds (by decide)

end Csc3150.FileSystem
