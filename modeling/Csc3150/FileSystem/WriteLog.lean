/-
**What `writei` writes to the log.**

`balloc`, `bmap` and `writei`, with buffers that keep the numbers of the blocks passed to `log_write`: a
fresh block, its bitmap block and the index block that points to it, the data blocks, and the inode's
block. From any log, the run with the log ends as the run without it and puts these blocks in front.

* `Fresh`, `bmap_log` — the log of a walk, from the pointers before and after it;
* `writeiLoop_log`, `writei_log` — the log of the loop, and of a call.
-/

import Csc3150.FileSystem.Logging
import Csc3150.FileSystem.Image

namespace Csc3150.FileSystem

open ByteBuffer Outcome Ownership

/-- `writei`, with the log. -/
def writeiLogged (sb : Superblock) (l : Logged) (ip : Inode) (src : CopyIn) (off n : UInt32) :
    Except Halt (Logged × Inode × Int) :=
  writeiWith .logged sb l ip src off n

/-! ### Slots -/

/-- The slots from `addrs[]` down to a slot. -/
def Slot.path : Slot → List Slot
  | .direct i => [.direct i]
  | .indirect => [.indirect]
  | .indirectEntry j => [.indirect, .indirectEntry j]
  | .doubly => [.doubly]
  | .doublyIndex i => [.doubly, .doublyIndex i]
  | .doublyEntry i j => [.doubly, .doublyIndex i, .doublyEntry i j]

theorem Slot.mem_path_self (slot : Slot) : slot ∈ slot.path := by
  cases slot <;> simp [path]

theorem Slot.path_child {slot parent : Slot} {i : Fin NINDIRECT} (here : slot.place = .inr (parent, i)) :
    slot.path = parent.path ++ [slot] := by
  cases slot <;> simp only [place, Sum.inr.injEq, Prod.mk.injEq, reduceCtorEq] at here <;>
    obtain ⟨rfl, -⟩ := here <;> rfl

theorem Slot.path_root {slot : Slot} {k : Fin (NDIRECT + 2)} (here : slot.place = .inl k) :
    slot.path = [slot] := by
  cases slot <;> simp only [place, Sum.inl.injEq, reduceCtorEq] at here <;> rfl

/-- The slots above a slot that holds a block hold blocks. -/
theorem pointer_path {disk : Disk} {addrs : Fin (NDIRECT + 2) → Nat} {slot target : Slot}
    (member : slot ∈ target.path) (nonzero : pointer disk addrs target ≠ 0) :
    pointer disk addrs slot ≠ 0 := by
  induction target using Slot.descend with
  | root target k here =>
    rw [Slot.path_root here, List.mem_singleton] at member
    rwa [member]
  | child target parent i here ih =>
    rw [Slot.path_child here, List.mem_append, List.mem_singleton] at member
    rcases member with above | rfl
    · exact ih above (parent_ne_zero here nonzero)
    · exact nonzero

/-! ### Fresh slots -/

/-- The slot was empty and holds a block now. -/
def Filled (disk : Disk) (addrs : Fin (NDIRECT + 2) → Nat) (after : Disk)
    (addrs' : Fin (NDIRECT + 2) → Nat) (slot : Slot) : Prop :=
  pointer disk addrs slot = 0 ∧ pointer after addrs' slot ≠ 0

/-- A fresh block, its bitmap block, or the index block that points to it. -/
def Fresh (sb : Superblock) (disk : Disk) (addrs : Fin (NDIRECT + 2) → Nat) (after : Disk)
    (addrs' : Fin (NDIRECT + 2) → Nat) (x : Nat) : Prop :=
  ∃ slot, Filled disk addrs after addrs' slot ∧ (x = pointer after addrs' slot ∨
    x = BBLOCK (pointer after addrs' slot) sb ∨
    ∃ parent i, slot.place = .inr (parent, i) ∧ x = pointer after addrs' parent)

/-- Pointers stay, and the lowest free blocks are handed out. -/
structure Extends (sb : Superblock) (disk : Disk) (addrs : Fin (NDIRECT + 2) → Nat) (after : Disk)
    (addrs' : Fin (NDIRECT + 2) → Nat) : Prop where
  kept : ∀ slot, pointer disk addrs slot ≠ 0 → pointer after addrs' slot = pointer disk addrs slot
  marks : ∀ b, b < sb.size → marked sb disk b = true → marked sb after b = true
  least : ∀ b c, b < sb.size → marked sb disk b = false → marked sb after b = true → c < b →
    marked sb after c = true
  /-- A filled slot holds a block that was free. -/
  taken : ∀ slot, Filled disk addrs after addrs' slot → pointer after addrs' slot < sb.size ∧
    marked sb disk (pointer after addrs' slot) = false ∧
      marked sb after (pointer after addrs' slot) = true
  /-- A block that is no longer free is in a filled slot. -/
  handed : ∀ b, b < sb.size → marked sb disk b = false → marked sb after b = true →
    ∃ slot, Filled disk addrs after addrs' slot ∧ pointer after addrs' slot = b

section Fresh

variable {sb : Superblock} {disk middle after : Disk} {addrs addrs' addrs'' : Fin (NDIRECT + 2) → Nat}
  {slot : Slot} {x : Nat}

/-- A step that changes neither pointers nor marks. -/
theorem Extends.of_same (pointers : ∀ slot, pointer after addrs' slot = pointer disk addrs slot)
    (marks : ∀ b, b < sb.size → marked sb after b = marked sb disk b) :
    Extends sb disk addrs after addrs' where
  kept slot _ := pointers slot
  marks b small set := (marks b small).trans set
  least b c small clear set _ := by
    rw [marks b small, clear] at set
    cases set
  taken slot filled := absurd ((pointers slot).trans filled.1) filled.2
  handed b small clear set := by
    rw [marks b small, clear] at set
    cases set

theorem Extends.refl : Extends sb disk addrs disk addrs := .of_same (fun _ => rfl) fun _ _ => rfl

theorem filled_iff (kept : ∀ slot, pointer disk addrs slot ≠ 0 →
      pointer middle addrs' slot = pointer disk addrs slot)
    (kept' : ∀ slot, pointer middle addrs' slot ≠ 0 →
      pointer after addrs'' slot = pointer middle addrs' slot) :
    Filled disk addrs after addrs'' slot ↔
      Filled disk addrs middle addrs' slot ∨ Filled middle addrs' after addrs'' slot := by
  constructor
  · intro filled
    obtain ⟨zero, nonzero⟩ := filled
    by_cases early : pointer middle addrs' slot = 0
    · exact Or.inr ⟨early, nonzero⟩
    · exact Or.inl ⟨zero, early⟩
  · rintro (⟨zero, nonzero⟩ | ⟨zero, nonzero⟩)
    · exact ⟨zero, by rwa [kept' slot nonzero]⟩
    · refine ⟨?_, nonzero⟩
      by_contra present
      exact present ((kept slot present).symm.trans zero)

theorem Extends.filled_iff (first : Extends sb disk addrs middle addrs')
    (second : Extends sb middle addrs' after addrs'') :
    Filled disk addrs after addrs'' slot ↔
      Filled disk addrs middle addrs' slot ∨ Filled middle addrs' after addrs'' slot :=
  FileSystem.filled_iff first.kept second.kept

theorem Extends.trans (first : Extends sb disk addrs middle addrs')
    (second : Extends sb middle addrs' after addrs'') : Extends sb disk addrs after addrs'' where
  kept slot nonzero := by
    have here := first.kept slot nonzero
    rw [second.kept slot (here ▸ nonzero), here]
  marks b small set := second.marks b small (first.marks b small set)
  least b c small clear set less := by
    by_cases early : marked sb middle b = true
    · exact second.marks c (less.trans small) (first.least b c small clear early less)
    · exact second.least b c small (Bool.eq_false_of_not_eq_true early) set less
  taken slot filled := by
    rcases (first.filled_iff second).mp filled with early | late
    · obtain ⟨small, clear, set⟩ := first.taken slot early
      rw [second.kept slot early.2]
      exact ⟨small, clear, second.marks _ small set⟩
    · obtain ⟨small, clear, set⟩ := second.taken slot late
      refine ⟨small, ?_, set⟩
      by_contra before
      rw [first.marks _ small (Bool.eq_true_of_not_eq_false before)] at clear
      cases clear
  handed b small clear set := by
    by_cases early : marked sb middle b = true
    · obtain ⟨slot, filled, isB⟩ := first.handed b small clear early
      exact ⟨slot, (first.filled_iff second).mpr (Or.inl filled),
        (second.kept slot filled.2).trans isB⟩
    · obtain ⟨slot, filled, isB⟩ := second.handed b small (Bool.eq_false_of_not_eq_true early) set
      exact ⟨slot, (first.filled_iff second).mpr (Or.inr filled), isB⟩

theorem Filled.parent_ne_zero {parent : Slot} {i : Fin NINDIRECT}
    (filled : Filled disk addrs after addrs' slot) (here : slot.place = .inr (parent, i)) :
    pointer after addrs' parent ≠ 0 := FileSystem.parent_ne_zero here filled.2

theorem Extends.fresh_iff (first : Extends sb disk addrs middle addrs')
    (second : Extends sb middle addrs' after addrs'') : Fresh sb disk addrs after addrs'' x ↔
      Fresh sb disk addrs middle addrs' x ∨ Fresh sb middle addrs' after addrs'' x := by
  have same : ∀ slot, Filled disk addrs middle addrs' slot →
      (x = pointer after addrs'' slot ∨ x = BBLOCK (pointer after addrs'' slot) sb ∨
        (∃ parent i, slot.place = .inr (parent, i) ∧ x = pointer after addrs'' parent) ↔
      x = pointer middle addrs' slot ∨ x = BBLOCK (pointer middle addrs' slot) sb ∨
        ∃ parent i, slot.place = .inr (parent, i) ∧ x = pointer middle addrs' parent) := by
    intro slot filled
    rw [second.kept slot filled.2]
    refine or_congr_right (or_congr_right (exists₂_congr fun parent i =>
      and_congr_right fun here => ?_))
    rw [second.kept parent (filled.parent_ne_zero here)]
  constructor
  · rintro ⟨slot, filled, isX⟩
    rcases (first.filled_iff second).mp filled with early | late
    · exact Or.inl ⟨slot, early, (same slot early).mp isX⟩
    · exact Or.inr ⟨slot, late, isX⟩
  · rintro (⟨slot, early, isX⟩ | ⟨slot, late, isX⟩)
    · exact ⟨slot, (first.filled_iff second).mpr (Or.inl early), (same slot early).mpr isX⟩
    · exact ⟨slot, (first.filled_iff second).mpr (Or.inr late), isX⟩

theorem not_filled_of_same (pointers : ∀ slot, pointer after addrs' slot = pointer disk addrs slot) :
    ¬ Filled disk addrs after addrs' slot :=
  fun filled => filled.2 ((pointers slot).trans filled.1)

theorem not_fresh_of_same (pointers : ∀ slot, pointer after addrs' slot = pointer disk addrs slot) :
    ¬ Fresh sb disk addrs after addrs' x := by
  rintro ⟨slot, filled, -⟩
  exact not_filled_of_same pointers filled

end Fresh

/-! ### One round of the walk -/

section Balloc

variable {sb : Superblock} {disk after : Disk} {b : Nat}

/-- On a full disk nothing is logged. -/
theorem balloc_logged_full (full : ∀ b, b < sb.size → marked sb disk b = true) (blocks : List Nat) :
    Buffers.logged.balloc sb ⟨disk, blocks⟩ = .ok (⟨disk, blocks⟩, 0) := by
  cases scan : firstFree sb disk with
  | none => exact congrArg Except.ok (ballocWith_none .logged scan)
  | some counters =>
    obtain ⟨upper, -, -, free, -⟩ := @firstFree_some _ _ counters.1 counters.2 scan
    cases free.symm.trans (full _ upper)

/-- A fresh block and its bitmap block are logged. -/
theorem balloc_logged_fresh (run : balloc sb disk = (after, b)) (nonzero : b ≠ 0) (blocks : List Nat) :
    Buffers.logged.balloc sb ⟨disk, blocks⟩ = .ok (⟨after, b :: BBLOCK b sb :: blocks⟩, b) := by
  cases scan : firstFree sb disk with
  | none =>
    cases (balloc_none scan).symm.trans run
    exact absurd rfl nonzero
  | some counters =>
    obtain ⟨first, bi⟩ := counters
    obtain ⟨-, sameBlock, -⟩ := firstFree_some scan
    cases (balloc_some scan).symm.trans run
    rw [← sameBlock]
    exact congrArg Except.ok (ballocWith_some .logged scan)

end Balloc

section Round

variable {sb : Superblock} {inodes : Nat → Dinode} {disk after : Disk} {ip ip' : Inode} {target : Slot}
  {addr : Nat} {x : Nat}

/-- A round fills no slot but its target. -/
theorem Round.filled (round : Round sb inodes disk ip target after ip' addr)
    (inUse : InUse sb (withInode inodes ip) ip.inum) {slot : Slot}
    (filled : Filled disk ip.addrs after ip'.addrs slot) : slot = target := by
  have fresh := round.grows.fresh ip.inum slot inUse
  rw [withInode_self, withInode_addrs round.change] at fresh
  exact (fresh filled.1 filled.2).2.1

/-- A round changes nothing, or hands out the lowest free block. -/
theorem Round.extends (round : Round sb inodes disk ip target after ip' addr)
    (inUse : InUse sb (withInode inodes ip) ip.inum)
    (lowest : pointer disk ip.addrs target = 0 → addr ≠ 0 → ∃ middle, Allocated sb disk middle addr ∧
      ∀ c, c < sb.size → marked sb after c = marked sb middle c) :
    Extends sb disk ip.addrs after ip'.addrs := by
  by_cases idle : pointer disk ip.addrs target ≠ 0 ∨ addr = 0
  · have nothing : after = disk ∧ ip' = ip := by
      rcases idle with present | none
      · exact round.present present
      · exact ⟨(round.full none).1, (round.full none).2.1⟩
    rw [nothing.1, nothing.2]
    exact .refl
  · rw [not_or, not_not] at idle
    obtain ⟨zero, nonzero⟩ := idle
    obtain ⟨middle, allocated, same⟩ := lowest zero nonzero
    have bits : ∀ c, c < sb.size → marked sb after c = (decide (c = addr) || marked sb disk c) :=
      fun c small => (same c small).trans (allocated.bits c small)
    have isTarget : Filled disk ip.addrs after ip'.addrs target := ⟨zero, round.held ▸ nonzero⟩
    have fresh : ∀ b, b < sb.size → marked sb disk b = false → marked sb after b = true → b = addr := by
      intro b small clear set
      rwa [bits b small, clear, Bool.or_false, decide_eq_true_eq] at set
    refine ⟨fun slot present => ?_, round.grows.marks, fun b c small clear set less => ?_,
      fun slot filled => ?_, fun b small clear set => ⟨target, isTarget, ?_⟩⟩
    · have kept := round.grows.kept ip.inum slot inUse
      rw [withInode_self, withInode_addrs round.change] at kept
      exact kept present
    · obtain rfl := fresh b small clear set
      rw [bits c (less.trans small), allocated.least c less, Bool.or_true]
    · rw [round.filled inUse filled, round.held]
      refine ⟨allocated.upper, allocated.free, ?_⟩
      rw [bits addr allocated.upper, decide_eq_true rfl, Bool.true_or]
    · exact round.held.trans (fresh b small clear set).symm

/-- What a round logs. -/
theorem Round.fresh_iff (round : Round sb inodes disk ip target after ip' addr)
    (inUse : InUse sb (withInode inodes ip) ip.inum) : Fresh sb disk ip.addrs after ip'.addrs x ↔
      (pointer disk ip.addrs target = 0 ∧ addr ≠ 0) ∧ (x = addr ∨ x = BBLOCK addr sb ∨
        ∃ parent i, target.place = .inr (parent, i) ∧ x = pointer after ip'.addrs parent) := by
  have held := round.held
  constructor
  · rintro ⟨slot, filled, isX⟩
    obtain rfl := round.filled inUse filled
    rw [held] at isX
    exact ⟨⟨filled.1, held ▸ filled.2⟩, isX⟩
  · rintro ⟨⟨zero, nonzero⟩, isX⟩
    rw [← held] at isX nonzero
    exact ⟨target, ⟨zero, nonzero⟩, isX⟩

variable (layout : sb.WellFormed) (owned : Owned sb disk (withInode inodes ip))
  (inUse : InUse sb (withInode inodes ip) ip.inum)

include layout owned inUse

theorem inodeAddr_log {k : Fin (NDIRECT + 2)} (here : target.place = .inl k) :
    ∃ after ip' addr new,
      inodeAddrWith (Buffers.disk.balloc sb) disk ip k = .ok (after, ip', addr) ∧
      (∀ blocks, inodeAddrWith (Buffers.logged.balloc sb) ⟨disk, blocks⟩ ip k =
        .ok (⟨after, new ++ blocks⟩, ip', addr)) ∧
      Round sb inodes disk ip target after ip' addr ∧ Extends sb disk ip.addrs after ip'.addrs ∧
      ∀ x, x ∈ new ↔ Fresh sb disk ip.addrs after ip'.addrs x := by
  obtain ⟨after, ip', addr, run, round⟩ := inodeAddr_round layout owned inUse here
  have holds : pointer disk ip.addrs target = ip.addrs k := pointer_root here
  have noParent : ∀ x, ¬ ∃ parent i, target.place = .inr (parent, i) ∧
      x = pointer after ip'.addrs parent := by
    rintro x ⟨parent, i, place, -⟩
    rw [here] at place
    cases place
  by_cases zero : ip.addrs k = 0
  · rcases balloc_cases layout owned.metadata with ⟨none, full⟩ | ⟨middle, b, found, allocated⟩
    · cases run.symm.trans (inodeAddrWith_full zero (disk_balloc none))
      refine ⟨_, ip, 0, [], run, fun blocks => ?_, round,
        round.extends inUse fun _ nonzero => absurd rfl nonzero, fun x => ?_⟩
      · exact inodeAddrWith_full zero (balloc_logged_full full blocks)
      · rw [round.fresh_iff inUse]
        exact iff_of_false List.not_mem_nil fun both => both.1.2 rfl
    · have positive : b ≠ 0 := allocated.ne_zero layout
      cases run.symm.trans (inodeAddrWith_fresh zero (disk_balloc found) positive)
      refine ⟨_, _, addr, [addr, BBLOCK addr sb], run, fun blocks => ?_, round,
        round.extends inUse fun _ _ => ⟨_, allocated, fun _ _ => rfl⟩, fun x => ?_⟩
      · exact inodeAddrWith_fresh zero (balloc_logged_fresh found positive blocks) positive
      · rw [round.fresh_iff inUse, or_iff_left (noParent x), and_iff_right ⟨holds.trans zero, positive⟩,
          List.mem_cons, List.mem_singleton]
  · cases run.symm.trans (inodeAddrWith_present _ _ zero)
    refine ⟨_, ip, _, [], run, fun blocks => inodeAddrWith_present _ _ zero, round,
      round.extends inUse fun empty => absurd (holds.symm.trans empty) zero, fun x => ?_⟩
    rw [round.fresh_iff inUse, holds]
    exact iff_of_false List.not_mem_nil fun both => zero both.1.1

theorem blockAddr_log {holder : Slot} {i : Fin NINDIRECT} (here : target.place = .inr (holder, i))
    (present : pointer disk ip.addrs holder ≠ 0) :
    ∃ after addr new,
      blockAddrWith .disk (Buffers.disk.balloc sb) disk (pointer disk ip.addrs holder) i =
        .ok (after, addr) ∧
      (∀ blocks, blockAddrWith .logged (Buffers.logged.balloc sb) ⟨disk, blocks⟩
        (pointer disk ip.addrs holder) i = .ok (⟨after, new ++ blocks⟩, addr)) ∧
      Round sb inodes disk ip target after ip addr ∧ Extends sb disk ip.addrs after ip.addrs ∧
      ∀ x, x ∈ new ↔ Fresh sb disk ip.addrs after ip.addrs x := by
  obtain ⟨after, addr, run, round⟩ := blockAddr_round layout owned inUse here present
  have holds : pointer disk ip.addrs target = uintAt (disk (pointer disk ip.addrs holder)) i := by
    rw [pointer_child here, entry, if_neg present]
  by_cases zero : uintAt (disk (pointer disk ip.addrs holder)) i = 0
  · rcases balloc_cases layout owned.metadata with ⟨none, full⟩ | ⟨middle, b, found, allocated⟩
    · cases run.symm.trans (blockAddrWith_full zero (disk_balloc none))
      refine ⟨_, 0, [], run, fun blocks => ?_, round,
        round.extends inUse fun _ nonzero => absurd rfl nonzero, fun x => ?_⟩
      · exact blockAddrWith_full zero (balloc_logged_full full blocks)
      · rw [round.fresh_iff inUse]
        exact iff_of_false List.not_mem_nil fun both => both.1.2 rfl
    · have positive : b ≠ 0 := allocated.ne_zero layout
      cases run.symm.trans (blockAddrWith_fresh zero (disk_balloc found) positive)
      have lower : sb.dataStart ≤ pointer disk ip.addrs holder := by
        have self : (withInode inodes ip ip.inum).addrs = ip.addrs := by
          rw [withInode_self]
        rw [← self] at present ⊢
        exact owned.lower inUse present
      have step := round.extends inUse fun _ _ =>
        ⟨_, allocated, fun c small => marked_logWrite layout _ _ (Or.inr lower) small⟩
      refine ⟨_, addr, [pointer disk ip.addrs holder, addr, BBLOCK addr sb], run, fun blocks => ?_, round,
        step, fun x => ?_⟩
      · exact blockAddrWith_fresh zero (balloc_logged_fresh found positive blocks) positive
      · have onlyHolder : ∀ after, pointer after ip.addrs holder = pointer disk ip.addrs holder →
            ((∃ parent j, target.place = .inr (parent, j) ∧ x = pointer after ip.addrs parent) ↔
              x = pointer disk ip.addrs holder) := by
          intro after kept
          rw [← kept]
          constructor
          · rintro ⟨parent, j, place, isX⟩
            rw [here] at place
            cases place
            exact isX
          · exact fun isX => ⟨holder, i, here, isX⟩
        rw [round.fresh_iff inUse, onlyHolder _ (step.kept holder present),
          and_iff_right ⟨holds.trans zero, positive⟩]
        simp only [List.mem_cons, List.not_mem_nil, or_false]
        exact or_comm.trans or_assoc
  · cases run.symm.trans (blockAddrWith_present _ zero)
    refine ⟨_, _, [], run, fun blocks => blockAddrWith_present _ zero, round,
      round.extends inUse fun empty => absurd (holds.symm.trans empty) zero, fun x => ?_⟩
    rw [round.fresh_iff inUse, holds]
    exact iff_of_false List.not_mem_nil fun both => zero both.1.1

end Round

/-! ### The walk -/

section Walk

variable {sb : Superblock} {inodes : Nat → Dinode} {disk middle : Disk} {ip ip' : Inode}
  {target holder : Slot} {up : Nat}

/-- A walk to an index block goes on to one of its entries. -/
theorem Walk.next_log (layout : sb.WellFormed) (inUse : InUse sb (withInode inodes ip) ip.inum)
    (walk : Walk sb inodes disk ip holder middle ip' up) (nonzero : up ≠ 0) {i : Fin NINDIRECT}
    (here : target.place = .inr (holder, i)) (before : Extends sb disk ip.addrs middle ip'.addrs) :
    ∃ after addr new, blockAddrWith .disk (Buffers.disk.balloc sb) middle up i = .ok (after, addr) ∧
      (∀ blocks, blockAddrWith .logged (Buffers.logged.balloc sb) ⟨middle, blocks⟩ up i =
        .ok (⟨after, new ++ blocks⟩, addr)) ∧
      Walk sb inodes disk ip target after ip' addr ∧ Extends sb disk ip.addrs after ip'.addrs ∧
      Extends sb middle ip'.addrs after ip'.addrs ∧
      (∀ slot, Filled middle ip'.addrs after ip'.addrs slot → slot = target) ∧
      ∀ x, x ∈ new ↔ Fresh sb middle ip'.addrs after ip'.addrs x := by
  have inUse' : InUse sb (withInode inodes ip') ip'.inum := by
    rw [walk.number]
    exact (walk.grows.inUse_iff _).mpr inUse
  obtain ⟨after, addr, run, onward⟩ := walk.next layout inUse nonzero here
  have held := walk.held
  subst held
  obtain ⟨after', addr', new, run', logged, round, step, log⟩ :=
    blockAddr_log layout walk.grows.owned inUse' here nonzero
  cases run.symm.trans run'
  exact ⟨after, addr, new, run, logged, onward, before.trans step, step,
    fun _ => round.filled inUse', log⟩

variable (layout : sb.WellFormed) (owned : Owned sb disk (withInode inodes ip))
  (inUse : InUse sb (withInode inodes ip) ip.inum)

include layout owned inUse

/-- **The log of `bmap`.** -/
theorem bmap_log {bn : Nat} (small : bn < MAXFILE) :
    ∃ after ip' addr new, bmap sb disk ip bn = .ok (after, ip', addr) ∧
      (∀ blocks, bmapWith .logged (Buffers.logged.balloc sb) ⟨disk, blocks⟩ ip bn =
        .ok (⟨after, new ++ blocks⟩, ip', addr)) ∧
      Walk sb inodes disk ip (slotOf bn) after ip' addr ∧ Extends sb disk ip.addrs after ip'.addrs ∧
      (∀ slot, Filled disk ip.addrs after ip'.addrs slot → slot ∈ (slotOf bn).path) ∧
      ∀ x, x ∈ new ↔ Fresh sb disk ip.addrs after ip'.addrs x := by
  have start (target : Slot) {k : Fin (NDIRECT + 2)} (here : target.place = .inl k) :=
    inodeAddr_log layout owned inUse here
  obtain ⟨after, ip', addr, run, walk⟩ := bmap_spec layout owned inUse small
  rcases block_cases small with direct | ⟨j, single, rfl⟩ | ⟨j, double, rfl⟩
  · obtain ⟨after', ip'', addr', new, ran, logged, round, step, log⟩ := start (.direct ⟨bn, direct⟩) rfl
    cases run.symm.trans ((bmapWith_direct direct).trans ran)
    refine ⟨_, _, _, new, run, fun blocks => (bmapWith_direct direct).trans (logged blocks), walk, step,
      fun slot filled => ?_, log⟩
    rw [slotOf_direct direct]
    exact List.mem_singleton.mpr (round.filled inUse filled)
  · obtain ⟨middle, root, up, new, ran, logged, round, step, log⟩ := start .indirect rfl
    have here : (Slot.indirectEntry ⟨j, single⟩).place = .inr (.indirect, ⟨j, single⟩) := rfl
    have above : ∀ slot, Filled disk ip.addrs middle root.addrs slot →
        slot ∈ (Slot.indirectEntry ⟨j, single⟩).path := by
      intro slot filled
      rw [round.filled inUse filled]
      exact List.mem_cons_self
    by_cases zero : up = 0
    · subst zero
      cases run.symm.trans (bmapWith_single single ran)
      refine ⟨_, _, 0, new, run, fun blocks => bmapWith_single single (logged blocks), walk, step,
        ?_, log⟩
      rwa [slotOf_single single]
    · obtain ⟨after', addr', new', next, logged', -, all, step', only, log'⟩ :=
        round.walk.next_log layout inUse zero here step
      cases run.symm.trans ((bmapWith_single single ran).trans ((if_neg zero).trans (bind_of_ok next)))
      refine ⟨_, _, _, new' ++ new, run, fun blocks => ?_, walk, all, fun slot filled => ?_,
        fun x => ?_⟩
      · rw [List.append_assoc]
        exact (bmapWith_single single (logged blocks)).trans
          ((if_neg zero).trans (bind_of_ok (logged' _)))
      · rw [slotOf_single single]
        rcases (step.filled_iff step').mp filled with first | second
        · exact above slot first
        · rw [only slot second]
          exact Slot.mem_path_self _
      · rw [List.mem_append, log, log', step.fresh_iff step', or_comm]
  · have position := doubly_index_lt double
    have offset : j % NINDIRECT < NINDIRECT := Nat.mod_lt _ NINDIRECT_pos
    obtain ⟨first, root, top, new, ran, logged, round, step, log⟩ := start .doubly rfl
    have hereIndex : (Slot.doublyIndex ⟨j / NINDIRECT, position⟩).place =
        .inr (.doubly, ⟨j / NINDIRECT, position⟩) := rfl
    have hereEntry : (Slot.doublyEntry ⟨j / NINDIRECT, position⟩ ⟨j % NINDIRECT, offset⟩).place =
        .inr (.doublyIndex ⟨j / NINDIRECT, position⟩, ⟨j % NINDIRECT, offset⟩) := rfl
    have above : ∀ slot, Filled disk ip.addrs first root.addrs slot →
        slot ∈ (Slot.doublyEntry ⟨j / NINDIRECT, position⟩ ⟨j % NINDIRECT, offset⟩).path := by
      intro slot filled
      rw [round.filled inUse filled]
      exact List.mem_cons_self
    by_cases zero : top = 0
    · subst zero
      cases run.symm.trans (bmapWith_double double ran)
      refine ⟨_, _, 0, new, run, fun blocks => bmapWith_double double (logged blocks), walk, step,
        ?_, log⟩
      rwa [slotOf_double double]
    · obtain ⟨second, up, new', next, logged', walk', all, step', only, log'⟩ :=
        round.walk.next_log layout inUse zero hereIndex step
      have index := (bmapWith_double double ran).trans ((if_neg zero).trans (bind_of_ok next))
      have indexLogged := fun blocks => (bmapWith_double double (logged blocks)).trans
        ((if_neg zero).trans (bind_of_ok (logged' (new ++ blocks))))
      have indexPath : ∀ slot, Filled disk ip.addrs second root.addrs slot →
          slot ∈ (Slot.doublyEntry ⟨j / NINDIRECT, position⟩ ⟨j % NINDIRECT, offset⟩).path := by
        intro slot filled
        rcases (step.filled_iff step').mp filled with first | second
        · exact above slot first
        · rw [only slot second]
          exact List.mem_cons_of_mem _ List.mem_cons_self
      by_cases zero' : up = 0
      · subst zero'
        cases run.symm.trans index
        refine ⟨_, _, 0, new' ++ new, run, fun blocks => ?_, walk, all, ?_, fun x => ?_⟩
        · rw [List.append_assoc]
          exact indexLogged blocks
        · rwa [slotOf_double double]
        · rw [List.mem_append, log, log', step.fresh_iff step', or_comm]
      · obtain ⟨third, last, new'', next', logged'', -, whole, step'', only', log''⟩ :=
          walk'.next_log layout inUse zero' hereEntry all
        cases run.symm.trans (index.trans ((if_neg zero').trans (bind_of_ok next')))
        refine ⟨_, _, _, new'' ++ (new' ++ new), run, fun blocks => ?_, walk, whole,
          fun slot filled => ?_, fun x => ?_⟩
        · rw [List.append_assoc, List.append_assoc]
          exact (indexLogged blocks).trans ((if_neg zero').trans (bind_of_ok (logged'' _)))
        · rw [slotOf_double double]
          rcases (all.filled_iff step'').mp filled with above | lowest
          · exact indexPath slot above
          · rw [only' slot lowest]
            exact Slot.mem_path_self _
        · rw [List.mem_append, List.mem_append, log, log', log'', all.fresh_iff step'',
            step.fresh_iff step']
          exact or_comm.trans (or_congr_left or_comm)

end Walk

/-! ### The loop of `writei` -/

section Loop

variable {sb : Superblock} {inodes : Nat → Dinode} {disk : Disk} {ip : Inode}

/-- Storing into a data block changes no pointer of the inode. -/
theorem pointer_stored {slot : Slot} {data : Block} (owned : Owned sb disk (withInode inodes ip))
    (inUse : InUse sb (withInode inodes ip) ip.inum) (isData : slot.IsData)
    (nonzero : pointer disk ip.addrs slot ≠ 0) (other : Slot) :
    pointer (logWrite disk (pointer disk ip.addrs slot) data) ip.addrs other =
      pointer disk ip.addrs other := by
  have self : (withInode inodes ip ip.inum).addrs = ip.addrs := by
    rw [withInode_self]
  refine pointer_congr (fun _ => rfl) (fun index notData present => ?_) other
  refine logWrite_of_ne _ _ fun same => ?_
  rw [← self] at nonzero same
  exact notData ((owned.unique inUse inUse nonzero same).2 ▸ isData)

/-- The blocks of the offsets from `lo` to `hi`. -/
def Stored (after : Disk) (addrs : Fin (NDIRECT + 2) → Nat) (lo hi x : Nat) : Prop :=
  ∃ k, lo ≤ k ∧ k < hi ∧ x = pointer after addrs (slotOf (k / BSIZE))

/-- **The log of the loop of `writei`**, when no copy fails. -/
theorem writeiLoop_log (layout : sb.WellFormed) {src : CopyIn} (quiet : ∀ tot m, src.fault tot m = none)
    {start n : Nat} (room : start + n ≤ MAXFILE * BSIZE) :
    ∀ (fuel : Nat) (disk : Disk) (ip : Inode) (tot : Nat), n - tot ≤ fuel → tot ≤ n →
      Owned sb disk (withInode inodes ip) → InUse sb (withInode inodes ip) ip.inum →
      ∃ after ip' tot' new, writeiLoop sb src n fuel disk ip (start + tot) tot =
          .ok (after, ip', start + tot', tot') ∧
        (∀ blocks, writeiLoopWith .logged sb src n fuel ⟨disk, blocks⟩ ip (start + tot) tot =
          .ok (⟨after, new ++ blocks⟩, ip', start + tot', tot')) ∧ tot ≤ tot' ∧
        Extends sb disk ip.addrs after ip'.addrs ∧
        (∀ slot, Filled disk ip.addrs after ip'.addrs slot →
          ∃ k, start + tot ≤ k ∧ k < start + n ∧ slot ∈ (slotOf (k / BSIZE)).path) ∧
        (∀ k, start + tot ≤ k → k < start + tot' → pointer after ip'.addrs (slotOf (k / BSIZE)) ≠ 0) ∧
        (tot' < n → pointer after ip'.addrs (slotOf ((start + tot') / BSIZE)) = 0) ∧
        ∀ x, x ∈ new ↔
          Fresh sb disk ip.addrs after ip'.addrs x ∨
            Stored after ip'.addrs (start + tot) (start + tot') x := by
  have nothing : ∀ {disk : Disk} {addrs : Fin (NDIRECT + 2) → Nat} {lo x : Nat},
      ¬ (Fresh sb disk addrs disk addrs x ∨ Stored disk addrs lo lo x) := by
    rintro disk addrs lo x (fresh | ⟨k, lower, upper, -⟩)
    · exact not_fresh_of_same (fun _ => rfl) fresh
    · omega
  intro fuel
  induction fuel with
  | zero =>
    intro disk ip tot enough upper owned inUse
    exact ⟨disk, ip, tot, [], rfl, fun _ => rfl, le_rfl, .refl, fun slot filled => absurd filled.1 filled.2,
      fun k lower less => by omega, fun less => by omega,
      fun x => iff_of_false List.not_mem_nil nothing⟩
  | succ fuel ih =>
    intro disk ip tot enough upper owned inUse
    by_cases more : tot < n
    · have small : start + tot < MAXFILE * BSIZE := by omega
      have inside : (start + tot) / BSIZE < MAXFILE := Nat.div_lt_of_lt_mul (by rwa [Nat.mul_comm])
      obtain ⟨middle, ip', addr, new, run, logged, walk, step, path, log⟩ :=
        bmap_log layout owned inUse inside
      have covered : ∀ slot, Filled disk ip.addrs middle ip'.addrs slot →
          ∃ k, start + tot ≤ k ∧ k < start + n ∧ slot ∈ (slotOf (k / BSIZE)).path :=
        fun slot filled => ⟨start + tot, le_rfl, by omega, path slot filled⟩
      by_cases zero : addr = 0
      · subst zero
        refine ⟨middle, ip', tot, new, writeiLoopWith_stop more run,
          fun blocks => writeiLoopWith_stop more (logged blocks), le_rfl, step, covered,
          fun k lower less => by omega, fun _ => walk.held, fun x => ?_⟩
        rw [log]
        refine (or_iff_left ?_).symm
        rintro ⟨k, lower, less, -⟩
        omega
      · have positive : 0 < BSIZE - (start + tot) % BSIZE :=
          Nat.sub_pos_of_lt (Nat.mod_lt _ (by decide))
        obtain ⟨m, isM⟩ : ∃ m, m = min (n - tot) (BSIZE - (start + tot) % BSIZE) := ⟨_, rfl⟩
        have bounds : 0 < m ∧ tot + m ≤ n ∧ (start + tot) % BSIZE + m ≤ BSIZE := by omega
        have number : ip'.inum = ip.inum := walk.number
        have inUse' : InUse sb (withInode inodes ip') ip'.inum := by
          rw [number]
          exact (walk.grows.inUse_iff _).mpr inUse
        obtain ⟨first, -⟩ := walk.store layout src m inUse small zero bounds.2.2
        have held := walk.held
        obtain ⟨stored, isStored⟩ : ∃ stored, stored = logWrite middle addr
          (write (middle addr) ((start + tot) % BSIZE) (src.bytes tot m)) := ⟨_, rfl⟩
        rw [← isStored] at first
        have pointers : ∀ slot, pointer stored ip'.addrs slot = pointer middle ip'.addrs slot := by
          subst held
          exact fun slot => isStored ▸
            pointer_stored walk.grows.owned inUse' (slotOf_isData _) zero slot
        have outside : sb.Outside addr := by
          have self : (withInode inodes ip' ip'.inum).addrs = ip'.addrs := by
            rw [withInode_self]
          refine Or.inr ?_
          rw [← held, ← self] at zero ⊢
          exact walk.grows.owned.lower inUse' zero
        have same : Extends sb middle ip'.addrs stored ip'.addrs :=
          .of_same pointers fun b below => isStored ▸ marked_logWrite layout _ _ outside below
        obtain ⟨after, ip'', tot', new', rest, restLogged, lower, onward, path', mapped, stop, log'⟩ :=
          ih stored ip' (tot + m) (by omega) bounds.2.1 first.owned inUse'
        have all : Extends sb disk ip.addrs after ip''.addrs := (step.trans same).trans onward
        have oneBlock : ∀ k, start + tot ≤ k → k < start + (tot + m) →
            k / BSIZE = (start + tot) / BSIZE := by
          intro k lower less
          unfold BSIZE at *
          omega
        have addrKept : pointer after ip''.addrs (slotOf ((start + tot) / BSIZE)) = addr := by
          have here := (same.trans onward).kept (slotOf ((start + tot) / BSIZE))
          rw [held] at here
          exact here zero
        rw [isStored, ← Nat.add_assoc] at rest
        refine ⟨after, ip'', tot', new' ++ addr :: new,
          (writeiLoopWith_chunk more run zero isM.symm (quiet tot m)).trans rest, fun blocks => ?_, by omega,
          all, fun slot filled => ?_, fun k above less => ?_, stop, fun x => ?_⟩
        · have loggedRest := restLogged (addr :: (new ++ blocks))
          rw [isStored, ← Nat.add_assoc] at loggedRest
          rw [List.append_assoc]
          exact (writeiLoopWith_chunk more (logged blocks) zero isM.symm (quiet tot m)).trans loggedRest
        · rcases ((step.trans same).filled_iff onward).mp filled with early | late
          · rcases (step.filled_iff same).mp early with early | none
            · exact covered slot early
            · exact absurd none (not_filled_of_same pointers)
          · obtain ⟨k, above, less, member⟩ := path' slot late
            exact ⟨k, by omega, less, member⟩
        · by_cases later : start + (tot + m) ≤ k
          · exact mapped k later less
          · rw [oneBlock k above (by omega), addrKept]
            exact zero
        · have split : Stored after ip''.addrs (start + tot) (start + tot') x ↔
              x = addr ∨ Stored after ip''.addrs (start + (tot + m)) (start + tot') x := by
            constructor
            · rintro ⟨k, above, less, rfl⟩
              by_cases later : start + (tot + m) ≤ k
              · exact Or.inr ⟨k, later, less, rfl⟩
              · rw [oneBlock k above (by omega), addrKept]
                exact Or.inl rfl
            · rintro (rfl | ⟨k, above, less, isX⟩)
              · exact ⟨start + tot, le_rfl, by omega, addrKept.symm⟩
              · exact ⟨k, by omega, less, isX⟩
          have fresh : Fresh sb disk ip.addrs after ip''.addrs x ↔
              Fresh sb disk ip.addrs middle ip'.addrs x ∨
                Fresh sb stored ip'.addrs after ip''.addrs x := by
            rw [(step.trans same).fresh_iff onward, step.fresh_iff same,
              or_iff_left (not_fresh_of_same pointers)]
          rw [List.mem_append, List.mem_cons, log, log', split, fresh]
          simp only [or_assoc, or_comm, or_left_comm]
    · exact ⟨disk, ip, tot, [], writeiLoopWith_done _ more, fun _ => writeiLoopWith_done _ more, le_rfl,
        .refl, fun slot filled => absurd filled.1 filled.2, fun k lower less => by omega,
        fun less => absurd less more, fun x => iff_of_false List.not_mem_nil nothing⟩

end Loop

/-! ### `writei` -/

/-- A write that is not turned down, with its log. -/
structure Logs (sb : Superblock) (disk : Disk) (ip : Inode) (off n : Nat) (log : List Nat) (after : Disk)
    (ip' : Inode) (tot : Nat) : Prop where
  image : Image sb after
  cached : Cached sb after ip'
  number : ip'.inum = ip.inum
  size : ip'.size = max ip.size (off + tot)
  upper : tot ≤ n
  full : tot < n → Full sb after ∧ pointer after ip'.addrs (slotOf ((off + tot) / BSIZE)) = 0
  step : Extends sb disk ip.addrs after ip'.addrs
  filled : ∀ slot, Filled disk ip.addrs after ip'.addrs slot →
    ∃ k, off ≤ k ∧ k < off + n ∧ slot ∈ (slotOf (k / BSIZE)).path
  mapped : ∀ k, off ≤ k → k < off + tot → pointer after ip'.addrs (slotOf (k / BSIZE)) ≠ 0
  blocks : ∀ x, x ∈ log ↔ x = IBLOCK ip.inum sb ∨ Fresh sb disk ip.addrs after ip'.addrs x ∨
    Stored after ip'.addrs off (off + tot) x

theorem writei_log {sb : Superblock} {disk : Disk} {ip : Inode} (image : Image sb disk)
    (cached : Cached sb disk ip) {src : CopyIn} (quiet : ∀ tot m, src.fault tot m = none)
    {off n : UInt32} (accepts : ¬ Rejects ip.size off n) :
    ∃ after ip' tot new, writei sb disk ip src off n = .ok (after, ip', ((tot : Nat) : Int)) ∧
      (∀ blocks, writeiLogged sb ⟨disk, blocks⟩ ip src off n =
        .ok (⟨after, IBLOCK ip.inum sb :: (new ++ blocks)⟩, ip', (tot : Int))) ∧
      Logs sb disk ip off.toNat n.toNat (IBLOCK ip.inum sb :: new) after ip' tot := by
  have room : off.toNat + n.toNat ≤ MAXFILE * BSIZE := by
    unfold Rejects at accepts
    omega
  have start : off.toNat ≤ ip.size := by
    unfold Rejects at accepts
    omega
  have owned : Owned sb disk (withInode (dinode sb disk) ip) := by
    rw [cached.withInode]
    exact image.owned
  have inUse : InUse sb (withInode (dinode sb disk) ip) ip.inum := by
    rw [cached.withInode]
    exact cached.inUse
  obtain ⟨middle, ip₁, tot, hi, run, looped⟩ := writeiLoop_spec image.layout src room
    n.toNat disk ip 0 (by omega) (by omega) owned inUse
  obtain ⟨middle', ip₁', tot', new, run', logged, -, step, filled, mapped, stop, log⟩ := writeiLoop_log
    image.layout quiet room n.toNat disk ip 0 (by omega) (by omega) owned inUse
  have same := Except.ok.inj (run.symm.trans run')
  simp only [Prod.mk.injEq] at same
  obtain ⟨rfl, rfl, -, rfl⟩ := same
  obtain ⟨ip', final⟩ : ∃ ip' : Inode,
      ip' = { ip₁ with size := max ip.size (off.toNat + tot) } := ⟨_, rfl⟩
  have written := looped.written image cached start room final
  have size : ip₁.size = ip.size := by
    rw [looped.change]
  have addrs : ip'.addrs = ip₁.addrs := by
    rw [final]
  have number : ip'.inum = ip.inum := by
    rw [written.change]
  -- writing the inode back changes no pointer and no mark
  have inode : sb.Outside (IBLOCK ip'.inum sb) := number ▸ image.layout.outside_IBLOCK cached.inUse.2.1
  have pointers : ∀ slot, pointer (iupdate sb middle ip') ip'.addrs slot =
      pointer middle ip₁.addrs slot := by
    refine pointer_congr (fun k => congrFun addrs k) fun slot _ nonzero => ?_
    refine logWrite_of_ne _ _ fun same => ?_
    have number₁ : ip₁.inum = ip.inum := by
      rw [looped.change]
    have inUse₁ : InUse sb (withInode (dinode sb disk) ip₁) ip₁.inum := by
      rw [number₁]
      exact (looped.wrote.inUse_iff _).mpr inUse
    have self : (withInode (dinode sb disk) ip₁ ip₁.inum).addrs = ip₁.addrs := by
      rw [withInode_self]
    rw [← self] at nonzero same
    have lower := looped.wrote.owned.lower inUse₁ nonzero
    have upper := looped.wrote.owned.upper inUse₁ nonzero
    have below := image.layout.inodes_below _ (number ▸ cached.inUse.2.1)
    have bitmap := image.layout.bitmap_below _ upper
    have : sb.bmapstart ≤
        BBLOCK (pointer middle (withInode (dinode sb disk) ip₁ ip₁.inum).addrs slot) sb :=
      Nat.le_add_left _ _
    omega
  have marks : ∀ b, b < sb.size → marked sb (iupdate sb middle ip') b = marked sb middle b :=
    fun b small => marked_logWrite image.layout _ _ inode small
  have onward : Extends sb middle ip₁.addrs (iupdate sb middle ip') ip'.addrs := .of_same pointers marks
  refine ⟨iupdate sb middle ip', ip', tot, new, writeiWith_accepts accepts run size final,
    fun blocks => ?_, written.image, written.cached, number, ?_, written.upper, fun less => ?_,
    step.trans onward, fun slot isFilled => ?_, fun k lower less => ?_, fun x => ?_⟩
  · rw [← number]
    exact writeiWith_accepts accepts (logged blocks) size final
  · rw [final]
  · rcases written.stopped less with both | ⟨stored, fault, -⟩
    · rw [pointers]
      exact ⟨both.1, stop less⟩
    · rw [quiet] at fault
      cases fault
  · refine filled slot ?_
    exact ((step.filled_iff onward).mp isFilled).resolve_right (not_filled_of_same pointers)
  · rw [pointers]
    exact mapped k lower less
  · have stored : Stored (iupdate sb middle ip') ip'.addrs off.toNat (off.toNat + tot) x ↔
        Stored middle ip₁.addrs off.toNat (off.toNat + tot) x := by
      simp only [Stored, pointers]
    rw [List.mem_cons, step.fresh_iff onward, or_iff_left (not_fresh_of_same pointers), stored]
    exact or_congr_right (log x)

end Csc3150.FileSystem
