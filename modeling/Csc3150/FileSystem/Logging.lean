/-
**What `itrunc` writes to the log.**

The functions under `itrunc`, with buffers that keep, beside the disk, the numbers of the blocks passed to
`log_write`. Freeing a block logs its bitmap block; the index blocks are read, and the entries cleared in
the doubly-indirect block are not logged.

* `LogsSlots`, `itruncLogged_spec` — the log of `itrunc` is the inode's block and the bitmap blocks of the
  inode's blocks;
* `itrunc_fits_iff` — a truncation fits in a transaction exactly when its blocks lie below at most nine
  bitmap blocks; `itrunc_overflows` — ten blocks that do not.
-/

import Csc3150.FileSystem.Truncate
import Mathlib.Data.Set.Card
import Mathlib.Order.Interval.Finset.Nat

namespace Csc3150.FileSystem

open ByteBuffer Outcome

/-- The blocks that an operation may write, which `begin_op` reserves. -/
def MAXOPBLOCKS : Nat := 10

/-- The blocks of the log on disk: `log_write` panics when all of them but the header's are taken. -/
def LOGSIZE : Nat := MAXOPBLOCKS * 3

/-- The disk, and the blocks passed to `log_write`. -/
structure Logged where
  disk : Disk
  blocks : List Nat

/-- `log_write` of the modified buffer of a block. -/
def Logged.log_write (l : Logged) (bno : Nat) (data : Block) : Logged :=
  ⟨logWrite l.disk bno data, bno :: l.blocks⟩

/-- The blocks, and what is passed to `log_write`. -/
def Buffers.logged : Buffers Logged :=
  ⟨Logged.disk, fun l bno data => { l with disk := logWrite l.disk bno data }, Logged.log_write⟩

/-! ### The functions, with the log -/

section Functions

variable (sb : Superblock) (l : Logged)

def bfreeLogged (b : Nat) : Except Halt Logged := bfreeWith .logged sb l b

def bfreeEntryLogged (addr : Nat) : Except Halt Logged := bfreeEntryWith .logged sb l addr

def freeEntriesLogged (a : Block) : Except Halt Logged := freeEntriesWith .logged sb l a

def freeSingleLogged (bno : Nat) : Except Halt Logged := freeSingleWith .logged sb l bno

def freeIndirectLogged (bno : Nat) (l : Logged) (i : Nat) : Except Halt Logged :=
  freeIndirectWith .logged sb bno l i

def freeDoubleLogged (bno : Nat) : Except Halt Logged := freeDoubleWith .logged sb l bno

def iupdateLogged (ip : Inode) : Logged := iupdateWith .logged sb l ip

def itruncLogged (ip : Inode) : Except Halt (Logged × Inode) := itruncWith .logged sb l ip

end Functions

/-! ### The log of the freed slots -/

/-- The log grew by the bitmap blocks of the slots in `done`. -/
def LogsSlots (sb : Superblock) (disk : Disk) (addrs : Fin (NDIRECT + 2) → Nat) (done : Slot → Prop)
    (before after : List Nat) : Prop :=
  ∀ x, x ∈ after ↔ x ∈ before ∨
    ∃ slot, done slot ∧ pointer disk addrs slot ≠ 0 ∧ x = BBLOCK (pointer disk addrs slot) sb

section Logs

variable {sb : Superblock} {disk after : Disk} {addrs : Fin (NDIRECT + 2) → Nat}
  {done more : Slot → Prop} {blocks blocks' blocks'' : List Nat} {l : Logged}

theorem LogsSlots.trans (first : LogsSlots sb disk addrs done blocks blocks')
    (second : LogsSlots sb disk addrs more blocks' blocks'') :
    LogsSlots sb disk addrs (fun slot => done slot ∨ more slot) blocks blocks'' := by
  intro x
  rw [second x, first x, or_assoc]
  refine or_congr_right ⟨?_, ?_⟩
  · rintro (⟨slot, here, rest⟩ | ⟨slot, here, rest⟩)
    · exact ⟨slot, Or.inl here, rest⟩
    · exact ⟨slot, Or.inr here, rest⟩
  · rintro ⟨slot, here | here, rest⟩
    · exact Or.inl ⟨slot, here, rest⟩
    · exact Or.inr ⟨slot, here, rest⟩

theorem LogsSlots.congr (logs : LogsSlots sb disk addrs done blocks blocks')
    (same : ∀ slot, pointer disk addrs slot ≠ 0 → (more slot ↔ done slot)) :
    LogsSlots sb disk addrs more blocks blocks' := by
  intro x
  rw [logs x]
  refine or_congr_right (exists_congr fun slot => ?_)
  exact ⟨fun ⟨here, nonzero, isX⟩ => ⟨(same slot nonzero).mpr here, nonzero, isX⟩,
    fun ⟨here, nonzero, isX⟩ => ⟨(same slot nonzero).mp here, nonzero, isX⟩⟩

theorem LogsSlots.nothing (none : ∀ slot, done slot → pointer disk addrs slot = 0) :
    LogsSlots sb disk addrs done blocks blocks := by
  intro x
  refine (or_iff_left ?_).symm
  rintro ⟨slot, here, nonzero, -⟩
  exact nonzero (none slot here)

theorem bfreeLogged_of {b : Nat} (run : bfree sb l.disk b = .ok after) :
    bfreeLogged sb l b = .ok ⟨after, BBLOCK b sb :: l.blocks⟩ := by
  have used : ¬bit (l.disk (BBLOCK b sb)) (b % BPB) = false := by
    intro clear
    cases (bfree_clear clear).symm.trans run
  cases (bfree_set used).symm.trans run
  exact if_neg used

/-- One `bfree`. -/
theorem bfreeLogged_slot {slot : Slot} (nonzero : pointer disk addrs slot ≠ 0)
    (run : bfree sb l.disk (pointer disk addrs slot) = .ok after) :
    ∃ blocks, bfreeLogged sb l (pointer disk addrs slot) = .ok ⟨after, blocks⟩ ∧
      LogsSlots sb disk addrs (· = slot) l.blocks blocks := by
  refine ⟨_, bfreeLogged_of run, fun x => ?_⟩
  rw [List.mem_cons, or_comm]
  refine or_congr_right ⟨fun isX => ⟨slot, rfl, nonzero, isX⟩, ?_⟩
  rintro ⟨other, rfl, -, isX⟩
  exact isX

/-- A loop of `bfree`. -/
theorem bfreeLogged_loop {ι : Type*} (g : ι → Slot) (list : List ι) (l : Logged)
    (run : list.foldlM (fun disk' i => bfreeEntry sb disk' (pointer disk addrs (g i))) l.disk = .ok after) :
    ∃ blocks, list.foldlM (fun l i => bfreeEntryLogged sb l (pointer disk addrs (g i))) l =
        .ok ⟨after, blocks⟩ ∧
      LogsSlots sb disk addrs (fun slot => ∃ i ∈ list, g i = slot) l.blocks blocks := by
  induction list generalizing l with
  | nil =>
    cases run
    exact ⟨l.blocks, rfl, .nothing fun slot impossible => by simp at impossible⟩
  | cons i rest ih =>
    obtain ⟨middle, first, others⟩ := bind_eq_ok.mp run
    have here : ∃ blocks, bfreeEntryLogged sb l (pointer disk addrs (g i)) = .ok ⟨middle, blocks⟩ ∧
        LogsSlots sb disk addrs (· = g i) l.blocks blocks := by
      by_cases zero : pointer disk addrs (g i) = 0
      · have skipped : bfreeEntry sb l.disk (pointer disk addrs (g i)) = .ok l.disk :=
          if_neg (not_not.mpr zero)
        cases skipped.symm.trans first
        exact ⟨l.blocks, if_neg (not_not.mpr zero), .nothing fun slot same => same ▸ zero⟩
      · have freed : bfree sb l.disk (pointer disk addrs (g i)) = .ok middle :=
          (if_pos zero).symm.trans first
        obtain ⟨blocks, ran, logs⟩ := bfreeLogged_slot zero freed
        exact ⟨blocks, (if_pos zero).trans ran, logs⟩
    obtain ⟨blocks, ran, logs⟩ := here
    obtain ⟨blocks', ran', logs'⟩ := ih ⟨middle, blocks⟩ others
    refine ⟨blocks', (bind_of_ok ran).trans ran', (logs.trans logs').congr fun slot _ => ?_⟩
    rw [List.exists_mem_cons_iff]
    exact or_congr_left eq_comm

/-- The entries of an index block. -/
theorem freeEntriesLogged_of {a : Block} (g : Fin NINDIRECT → Slot)
    (values : ∀ j : Fin NINDIRECT, uintAt a j = pointer disk addrs (g j))
    (run : freeEntries sb l.disk a = .ok after) :
    ∃ blocks, freeEntriesLogged sb l a = .ok ⟨after, blocks⟩ ∧
      LogsSlots sb disk addrs (fun slot => ∃ j, g j = slot) l.blocks blocks := by
  rw [freeEntries, freeEntriesWith_finRange] at run
  rw [freeEntriesLogged, freeEntriesWith_finRange]
  simp only [values] at run ⊢
  obtain ⟨blocks, ran, logs⟩ := bfreeLogged_loop g _ l run
  refine ⟨blocks, ran, logs.congr fun slot _ => ⟨?_, ?_⟩⟩
  · rintro ⟨j, same⟩
    exact ⟨j, List.mem_finRange j, same⟩
  · rintro ⟨j, -, same⟩
    exact ⟨j, same⟩

/-- An index block: its entries, then the block. -/
theorem indexLogged_of {holder : Slot} (g : Fin NINDIRECT → Slot) {inner : Disk}
    (nonzero : pointer disk addrs holder ≠ 0)
    (values : ∀ j : Fin NINDIRECT, uintAt (l.disk (pointer disk addrs holder)) j = pointer disk addrs (g j))
    (entries : freeEntries sb l.disk (l.disk (pointer disk addrs holder)) = .ok inner)
    (free : bfree sb inner (pointer disk addrs holder) = .ok after) :
    ∃ middle blocks, freeEntriesLogged sb l (l.disk (pointer disk addrs holder)) = .ok middle ∧
      bfreeLogged sb middle (pointer disk addrs holder) = .ok ⟨after, blocks⟩ ∧
      LogsSlots sb disk addrs (fun slot => slot = holder ∨ ∃ j, g j = slot) l.blocks blocks := by
  obtain ⟨blocks, ran, logs⟩ := freeEntriesLogged_of g values entries
  obtain ⟨blocks', ran', logs'⟩ := @bfreeLogged_slot _ _ _ _ ⟨inner, blocks⟩ _ nonzero free
  exact ⟨_, blocks', ran, ran', (logs.trans logs').congr fun slot _ => or_comm⟩

/-! ### The log of `itrunc` -/

/-- One round of the loop over the doubly-indirect block. -/
theorem freeIndirectLogged_of {k : Nat} (inside : k < NINDIRECT)
    (value : uintAt (l.disk (pointer disk addrs .doubly)) k = pointer disk addrs (.doublyIndex ⟨k, inside⟩))
    (values : pointer disk addrs (.doublyIndex ⟨k, inside⟩) ≠ 0 → ∀ j : Fin NINDIRECT,
      uintAt (l.disk (pointer disk addrs (.doublyIndex ⟨k, inside⟩))) j =
        pointer disk addrs (.doublyEntry ⟨k, inside⟩ j))
    (run : freeIndirect sb (pointer disk addrs .doubly) l.disk k = .ok after) :
    ∃ blocks, freeIndirectLogged sb (pointer disk addrs .doubly) l k = .ok ⟨after, blocks⟩ ∧
      LogsSlots sb disk addrs (fun slot => slot = .doublyIndex ⟨k, inside⟩ ∨
        ∃ j, Slot.doublyEntry ⟨k, inside⟩ j = slot) l.blocks blocks := by
  by_cases zero : pointer disk addrs (.doublyIndex ⟨k, inside⟩) = 0
  · have skipped : freeIndirect sb (pointer disk addrs .doubly) l.disk k = .ok l.disk :=
      freeIndirectWith_skip .disk sb l.disk (value.trans zero)
    cases skipped.symm.trans run
    refine ⟨l.blocks, freeIndirectWith_skip .logged sb l (value.trans zero), .nothing ?_⟩
    rintro slot (rfl | ⟨j, rfl⟩)
    · exact zero
    · have here : (Slot.doublyEntry ⟨k, inside⟩ j).place = .inr (.doublyIndex ⟨k, inside⟩, j) := rfl
      rw [pointer_child here, zero, entry, if_pos rfl]
  · rw [freeIndirect, freeIndirectWith] at run
    obtain ⟨inner, entries, rest⟩ := bind_eq_ok.mp ((if_pos (value ▸ zero)).symm.trans run)
    obtain ⟨last, free, done⟩ := bind_eq_ok.mp rest
    cases done
    rw [show uintAt (Buffers.disk.bread l.disk _) k = _ from value] at entries free
    obtain ⟨middle, blocks, ran, ran', logs⟩ := indexLogged_of _ zero (values zero) entries free
    exact ⟨blocks, freeIndirectWith_free .logged sb value zero ran ran', logs⟩

section Doubly

variable {middle : Disk} (tree : Tree sb disk addrs) (layout : sb.WellFormed)
  (nonzero : pointer disk addrs .doubly ≠ 0)

include tree layout nonzero

/-- The loop over the doubly-indirect block. -/
theorem doublyLogged_run (indexPending : ∀ i, ¬ done (.doublyIndex i))
    (entryPending : ∀ i j, ¬ done (.doublyEntry i j)) (released : Released sb disk addrs done middle)
    (same : middle (pointer disk addrs .doubly) = disk (pointer disk addrs .doubly)) :
    ∀ k, k ≤ NINDIRECT → ∃ after blocks',
      (List.range k).foldlM (freeIndirect sb (pointer disk addrs .doubly)) middle = .ok after ∧
      (List.range k).foldlM (freeIndirectLogged sb (pointer disk addrs .doubly)) ⟨middle, blocks⟩ =
        .ok ⟨after, blocks'⟩ ∧
      Rounds sb disk addrs done k after ∧ LogsSlots sb disk addrs (BelowDoubly k) blocks blocks' := by
  intro k
  induction k with
  | zero =>
    intro _
    obtain ⟨after, run, rounds⟩ := Rounds.run tree layout nonzero indexPending entryPending released same
      0 (Nat.zero_le _)
    cases run
    refine ⟨middle, blocks, rfl, rfl, rounds, .nothing ?_⟩
    rintro slot ⟨i, less, -⟩
    exact absurd less (Nat.not_lt_zero _)
  | succ k ih =>
    intro inside
    obtain ⟨before, blocks', run, ran, rounds, logs⟩ := ih (by omega)
    obtain ⟨after, step, rounds'⟩ :=
      rounds.step tree layout nonzero inside indexPending entryPending
    have value : uintAt (before (pointer disk addrs .doubly)) k =
        pointer disk addrs (.doublyIndex ⟨k, inside⟩) := by
      have here : (Slot.doublyIndex ⟨k, inside⟩).place = .inr (.doubly, ⟨k, inside⟩) := rfl
      rw [rounds.ahead k le_rfl, pointer_child here, entry, if_neg nonzero]
    have values : pointer disk addrs (.doublyIndex ⟨k, inside⟩) ≠ 0 → ∀ j : Fin NINDIRECT,
        uintAt (before (pointer disk addrs (.doublyIndex ⟨k, inside⟩))) j =
          pointer disk addrs (.doublyEntry ⟨k, inside⟩ j) := by
      intro present j
      have here : (Slot.doublyEntry ⟨k, inside⟩ j).place = .inr (.doublyIndex ⟨k, inside⟩, j) := rfl
      rw [rounds.released.block tree present Slot.noConfusion, pointer_child here, entry,
        if_neg present]
    obtain ⟨blocks'', ran', logs'⟩ :=
      @freeIndirectLogged_of sb disk after addrs ⟨before, blocks'⟩ k inside value values step
    refine ⟨after, blocks'', ?_, ?_, rounds', (logs.trans logs').congr fun slot _ =>
      belowDoubly_succ inside slot⟩
    · rw [List.range_succ, List.foldlM_append, bind_of_ok run, List.foldlM_cons, bind_of_ok step]
      rfl
    · rw [List.range_succ, List.foldlM_append, bind_of_ok ran, List.foldlM_cons, bind_of_ok ran']
      rfl

end Doubly

theorem freeSingleLogged_of {first second : Disk}
    (same : pointer disk addrs .indirect ≠ 0 →
      first (pointer disk addrs .indirect) = disk (pointer disk addrs .indirect))
    (run : freeSingle sb first (pointer disk addrs .indirect) = .ok second) :
    ∃ blocks', freeSingleLogged sb ⟨first, blocks⟩ (pointer disk addrs .indirect) =
        .ok ⟨second, blocks'⟩ ∧
      LogsSlots sb disk addrs (fun slot => slot = .indirect ∨ ∃ j, Slot.indirectEntry j = slot)
        blocks blocks' := by
  have child : ∀ j, (Slot.indirectEntry j).place = .inr (.indirect, j) := fun _ => rfl
  unfold freeSingle freeSingleWith at run
  unfold freeSingleLogged freeSingleWith
  by_cases zero : pointer disk addrs .indirect = 0
  · rw [if_neg (not_not.mpr zero)] at run ⊢
    cases run
    refine ⟨blocks, rfl, .nothing ?_⟩
    rintro slot (rfl | ⟨j, rfl⟩)
    · exact zero
    · rw [pointer_child (child j), zero, entry, if_pos rfl]
  · rw [if_pos zero] at run ⊢
    obtain ⟨inner, entries, free⟩ := bind_eq_ok.mp run
    have values : ∀ j : Fin NINDIRECT, uintAt (first (pointer disk addrs .indirect)) j =
        pointer disk addrs (.indirectEntry j) := by
      intro j
      rw [same zero, pointer_child (child j), entry, if_neg zero]
    obtain ⟨middle, blocks', ran, ran', logs⟩ :=
      @indexLogged_of sb disk second addrs ⟨first, blocks⟩ .indirect .indirectEntry inner zero values
        entries free
    exact ⟨blocks', (bind_of_ok ran).trans ran', logs⟩

section Whole

variable {second third : Disk} (tree : Tree sb disk addrs) (layout : sb.WellFormed)

include tree layout

theorem freeDoubleLogged_of (indexPending : ∀ i, ¬ done (.doublyIndex i))
    (entryPending : ∀ i j, ¬ done (.doublyEntry i j)) (released : Released sb disk addrs done second)
    (same : ∀ c, sb.Outside c → second c = disk c)
    (run : freeDouble sb second (pointer disk addrs .doubly) = .ok third) :
    ∃ blocks', freeDoubleLogged sb ⟨second, blocks⟩ (pointer disk addrs .doubly) =
        .ok ⟨third, blocks'⟩ ∧
      LogsSlots sb disk addrs (fun slot => BelowDoubly NINDIRECT slot ∨ slot = .doubly) blocks blocks' := by
  unfold freeDouble freeDoubleWith at run
  unfold freeDoubleLogged freeDoubleWith
  by_cases zero : pointer disk addrs .doubly = 0
  · rw [if_neg (not_not.mpr zero)] at run ⊢
    cases run
    have empty : ∀ i, pointer disk addrs (.doublyIndex i) = 0 := by
      intro i
      have here : (Slot.doublyIndex i).place = .inr (.doubly, i) := rfl
      rw [pointer_child here, zero, entry, if_pos rfl]
    refine ⟨blocks, rfl, .nothing ?_⟩
    rintro slot (⟨i, -, rfl | ⟨j, rfl⟩⟩ | rfl)
    · exact empty i
    · have here : (Slot.doublyEntry i j).place = .inr (.doublyIndex i, j) := rfl
      rw [pointer_child here, empty, entry, if_pos rfl]
    · exact zero
  · rw [if_pos zero] at run ⊢
    obtain ⟨inner, blocks', loop, ran, -, logs⟩ := doublyLogged_run tree layout zero indexPending
      entryPending released (same _ (Or.inr (tree.lower zero))) NINDIRECT le_rfl
    have free := (bind_of_ok loop).symm.trans run
    obtain ⟨blocks'', ran', logs'⟩ := @bfreeLogged_slot _ _ _ _ ⟨inner, blocks'⟩ _ zero free
    exact ⟨blocks'', (bind_of_ok ran).trans ran', logs.trans logs'⟩

end Whole

end Logs

/-- **The log of `itrunc`**: the bitmap blocks of the inode's blocks, and the inode's block. -/
theorem itruncLogged_spec {sb : Superblock} {disk : Disk} {ip : Inode} (layout : sb.WellFormed)
    (tree : Tree sb disk ip.addrs) : ∃ l, itruncLogged sb ⟨disk, []⟩ ip = .ok (l, ip.truncated) ∧
      itrunc sb disk ip = .ok (l.disk, ip.truncated) ∧
      ∀ x, x ∈ l.blocks ↔ x = IBLOCK ip.inum sb ∨ ∃ slot, pointer disk ip.addrs slot ≠ 0 ∧
        x = BBLOCK (pointer disk ip.addrs slot) sb := by
  have distinct : (List.finRange NDIRECT).Pairwise fun i j => Slot.direct i ≠ .direct j :=
    (List.nodup_finRange NDIRECT).imp fun different same => different (Slot.direct.inj same)
  obtain ⟨first, direct, released, same⟩ :=
    Released.start.entries tree layout _ distinct fun _ _ => not_false
  have released' : Released sb disk ip.addrs (fun slot => ∃ i, Slot.direct i = slot) first :=
    released.congr fun slot _ => ⟨fun ⟨i, isDirect⟩ => Or.inr ⟨i, List.mem_finRange i, isDirect⟩,
      fun either => either.elim False.elim fun ⟨i, _, isDirect⟩ => ⟨i, isDirect⟩⟩
  obtain ⟨second, single, next, same'⟩ := freeSingle_spec layout tree released'
  have whole : ∀ c, sb.Outside c → second c = disk c :=
    fun c outside => (same' c outside).trans (same c outside)
  obtain ⟨third, double, -⟩ := freeDouble_spec layout tree next whole
  obtain ⟨blocks, ran, logs⟩ := bfreeLogged_loop Slot.direct (List.finRange NDIRECT) ⟨disk, []⟩ direct
  obtain ⟨blocks', ran', logs'⟩ := @freeSingleLogged_of sb disk ip.addrs blocks first second
    (fun nonzero => same _ (Or.inr (tree.lower nonzero))) single
  obtain ⟨blocks'', ran'', logs''⟩ := @freeDoubleLogged_of sb disk ip.addrs _ blocks' second third tree
    layout (by rintro i (⟨_, other⟩ | other | ⟨_, other⟩) <;> cases other)
    (by rintro i j (⟨_, other⟩ | other | ⟨_, other⟩) <;> cases other) next whole double
  refine ⟨iupdateLogged sb ⟨third, blocks''⟩ ip.truncated, ?_, ?_, fun x => ?_⟩
  · rw [itruncLogged]
    exact (bind_of_ok ran).trans ((bind_of_ok ran').trans (bind_of_ok ran''))
  · rw [itrunc]
    exact (bind_of_ok direct).trans ((bind_of_ok single).trans (bind_of_ok double))
  · have grown := (((logs.trans logs').trans logs'') x).trans (or_iff_right List.not_mem_nil)
    show x ∈ IBLOCK ip.inum sb :: blocks'' ↔ _
    rw [List.mem_cons, grown]
    refine or_congr_right (exists_congr fun slot => and_iff_right_of_imp fun _ => ?_)
    cases slot with
    | direct i => exact Or.inl (Or.inl ⟨i, List.mem_finRange i, rfl⟩)
    | indirect => exact Or.inl (Or.inr (Or.inl rfl))
    | indirectEntry j => exact Or.inl (Or.inr (Or.inr ⟨j, rfl⟩))
    | doubly => exact Or.inr (Or.inr rfl)
    | doublyIndex i => exact Or.inr (Or.inl ⟨i, i.isLt, Or.inl rfl⟩)
    | doublyEntry i j => exact Or.inr (Or.inl ⟨i, i.isLt, Or.inr ⟨j, rfl⟩⟩)

/-! ### Fitting in a transaction -/

/-- The bitmap blocks with the bits of the blocks of an inode. -/
def bitmapBlocks (sb : Superblock) (disk : Disk) (addrs : Fin (NDIRECT + 2) → Nat) : Set Nat :=
  {c | ∃ slot, pointer disk addrs slot ≠ 0 ∧ c = BBLOCK (pointer disk addrs slot) sb}

/-- **A truncation fits in a transaction** exactly when the inode's blocks lie below at most nine bitmap
blocks. -/
theorem itrunc_fits_iff {sb : Superblock} {disk : Disk} {ip : Inode} (layout : sb.WellFormed)
    (tree : Tree sb disk ip.addrs) (inside : ip.inum < sb.ninodes) :
    ∃ l, itruncLogged sb ⟨disk, []⟩ ip = .ok (l, ip.truncated) ∧
      itrunc sb disk ip = .ok (l.disk, ip.truncated) ∧
      (l.blocks.toFinset.card ≤ MAXOPBLOCKS ↔ (bitmapBlocks sb disk ip.addrs).ncard ≤ 9) := by
  obtain ⟨l, logged, run, blocks⟩ := itruncLogged_spec layout tree
  refine ⟨l, logged, run, ?_⟩
  have isSet : (l.blocks.toFinset : Set Nat) =
      insert (IBLOCK ip.inum sb) (bitmapBlocks sb disk ip.addrs) := by
    ext x
    rw [List.coe_toFinset, Set.mem_ofPred_eq, blocks, Set.mem_insert_iff]
    rfl
  have finite : (bitmapBlocks sb disk ip.addrs).Finite :=
    (isSet ▸ l.blocks.toFinset.finite_toSet).subset (Set.subset_insert _ _)
  have apart : IBLOCK ip.inum sb ∉ bitmapBlocks sb disk ip.addrs := by
    rintro ⟨slot, nonzero, same⟩
    exact layout.ne_BBLOCK (tree.upper nonzero) (layout.outside_IBLOCK inside) same
  have count : l.blocks.toFinset.card = (bitmapBlocks sb disk ip.addrs).ncard + 1 := by
    rw [← Set.ncard_coe_finset, isSet, Set.ncard_insert_of_notMem apart finite]
  rw [count]
  exact Nat.succ_le_succ_iff

/-! ### A scattered file -/

/-- A disk of eleven bitmap blocks, all of whose bits are set. -/
def scatteredSuperblock : Superblock := ⟨90112, 90092, 16, 2, 3⟩

def scatteredDisk : Disk := fun _ _ => 255

/-- A file of this many direct blocks, one below each bitmap block. -/
def scatteredInode (blocks : Nat) : Inode :=
  { type := T_FILE, major := 0, minor := 0, nlink := 1, size := blocks * BSIZE
    addrs := fun i => if i.val < blocks then (i.val + 1) * BPB else 0
    dev := 1, inum := 1, ref := 1, lock := true, valid := true }

theorem scattered_wellFormed : scatteredSuperblock.WellFormed where
  inodes_below inum inside := by
    have bound : inum < 16 := inside
    show inum / 16 + 2 < 3
    omega
  bitmap_below b inside := by
    have bound : b < 90112 := inside
    show b / 8192 + 3 < 20
    omega
  size_le := by decide

/-- The blocks of the file. -/
theorem scattered_pointer {blocks : Nat} (few : blocks ≤ 10) {slot : Slot}
    (nonzero : pointer scatteredDisk (scatteredInode blocks).addrs slot ≠ 0) :
    ∃ i : Fin NDIRECT, slot = .direct i ∧ i.val < blocks ∧
      pointer scatteredDisk (scatteredInode blocks).addrs slot = (i.val + 1) * BPB := by
  have absent : ∀ k : Fin (NDIRECT + 2), 11 ≤ k.val → (scatteredInode blocks).addrs k = 0 :=
    fun k large => if_neg (by omega)
  have single : pointer scatteredDisk (scatteredInode blocks).addrs .indirect = 0 := absent _ le_rfl
  have double : pointer scatteredDisk (scatteredInode blocks).addrs .doubly = 0 :=
    absent _ (Nat.le_succ 11)
  have below : ∀ {slot parent : Slot} {i : Fin NINDIRECT}, slot.place = .inr (parent, i) →
      pointer scatteredDisk (scatteredInode blocks).addrs parent = 0 →
      pointer scatteredDisk (scatteredInode blocks).addrs slot = 0 := by
    intro slot parent i here zero
    by_contra present
    exact parent_ne_zero here present zero
  cases slot with
  | direct i =>
    have value : pointer scatteredDisk (scatteredInode blocks).addrs (.direct i) =
        if i.val < blocks then (i.val + 1) * BPB else 0 := rfl
    rw [value] at nonzero ⊢
    by_cases inside : i.val < blocks
    · exact ⟨i, rfl, inside, if_pos inside⟩
    · exact absurd (if_neg inside) nonzero
  | indirect => exact absurd single nonzero
  | indirectEntry j =>
    have here : (Slot.indirectEntry j).place = .inr (.indirect, j) := rfl
    exact absurd (below here single) nonzero
  | doubly => exact absurd double nonzero
  | doublyIndex i =>
    have here : (Slot.doublyIndex i).place = .inr (.doubly, i) := rfl
    exact absurd (below here double) nonzero
  | doublyEntry i j =>
    have here : (Slot.doublyEntry i j).place = .inr (.doublyIndex i, j) := rfl
    have up : (Slot.doublyIndex i).place = .inr (.doubly, i) := rfl
    exact absurd (below here (below up double)) nonzero

theorem scattered_tree {blocks : Nat} (few : blocks ≤ 10) :
    Tree scatteredSuperblock scatteredDisk (scatteredInode blocks).addrs := by
  have value := @scattered_pointer blocks few
  have full : ∀ b, marked scatteredSuperblock scatteredDisk b = true := by
    have ones : ∀ k, k < 8 → (255 : UInt8).toBitVec.getLsbD k = true := by decide
    intro b
    rw [marked, bit_eq]
    exact ones _ (Nat.mod_lt _ (by decide))
  refine ⟨fun {slot} nonzero => ?_, fun {slot} nonzero => ?_, fun _ => full _,
    fun {slot slot'} nonzero same => ?_⟩
  · obtain ⟨i, -, -, isBlock⟩ := value nonzero
    have start : scatteredSuperblock.dataStart = 20 := by decide
    rw [isBlock, BPB_eq, start]
    omega
  · obtain ⟨i, -, inside, isBlock⟩ := value nonzero
    have size : scatteredSuperblock.size = 90112 := rfl
    rw [isBlock, BPB_eq, size]
    omega
  · obtain ⟨i, rfl, -, isBlock⟩ := value nonzero
    obtain ⟨j, rfl, -, isBlock'⟩ := value (same ▸ nonzero)
    rw [isBlock, isBlock', BPB_eq] at same
    exact congrArg Slot.direct (Fin.ext (by omega))

theorem scattered_bitmap {blocks : Nat} (few : blocks ≤ 10) :
    bitmapBlocks scatteredSuperblock scatteredDisk (scatteredInode blocks).addrs =
      Set.Ico 4 (blocks + 4) := by
  ext c
  constructor
  · rintro ⟨slot, nonzero, rfl⟩
    obtain ⟨i, -, inside, isBlock⟩ := scattered_pointer few nonzero
    rw [isBlock, BBLOCK, BPB_eq]
    show _ / 8192 + 3 ∈ Set.Ico 4 (blocks + 4)
    rw [Set.mem_Ico]
    omega
  · intro inside
    rw [Set.mem_Ico] at inside
    have small : c - 4 < NDIRECT := by
      show c - 4 < 11
      omega
    have isBlock : pointer scatteredDisk (scatteredInode blocks).addrs (.direct ⟨c - 4, small⟩) =
        (c - 4 + 1) * BPB := if_pos (by show c - 4 < blocks; omega)
    refine ⟨.direct ⟨c - 4, small⟩, ?_, ?_⟩
    · rw [isBlock, BPB_eq]
      omega
    · rw [isBlock, BBLOCK, BPB_eq]
      show c = (c - 4 + 1) * 8192 / 8192 + 3
      omega

/-- Nine blocks below nine bitmap blocks. -/
theorem itrunc_fits_small : ∃ l,
    itruncLogged scatteredSuperblock ⟨scatteredDisk, []⟩ (scatteredInode 9) =
      .ok (l, (scatteredInode 9).truncated) ∧ l.blocks.toFinset.card ≤ MAXOPBLOCKS := by
  obtain ⟨l, logged, -, fits⟩ := itrunc_fits_iff scattered_wellFormed
    (@scattered_tree 9 (by decide)) (by decide)
  refine ⟨l, logged, fits.mpr ?_⟩
  rw [scattered_bitmap (by decide), ← Finset.coe_Ico, Set.ncard_coe_finset, Nat.card_Ico]

/-- **Ten blocks below ten bitmap blocks** do not fit: with the inode's block eleven are logged. -/
theorem itrunc_overflows : Tree scatteredSuperblock scatteredDisk (scatteredInode 10).addrs ∧
    ∃ l, itruncLogged scatteredSuperblock ⟨scatteredDisk, []⟩ (scatteredInode 10) =
      .ok (l, (scatteredInode 10).truncated) ∧ MAXOPBLOCKS < l.blocks.toFinset.card := by
  have tree := @scattered_tree 10 le_rfl
  have inside : (scatteredInode 10).inum < scatteredSuperblock.ninodes := by decide
  obtain ⟨l, logged, -, blocks⟩ := itruncLogged_spec scattered_wellFormed tree
  refine ⟨tree, l, logged, ?_⟩
  have bitmap : ∀ c, 4 ≤ c → c < 14 → c ∈ l.blocks := by
    intro c lower upper
    have isBitmap : c ∈ bitmapBlocks scatteredSuperblock scatteredDisk (scatteredInode 10).addrs := by
      rw [scattered_bitmap le_rfl]
      exact ⟨lower, upper⟩
    exact (blocks c).mpr (Or.inr isBitmap)
  have inode : 2 ∈ l.blocks := (blocks 2).mpr (Or.inl rfl)
  have many : (insert 2 (Finset.Ico 4 14)).card ≤ l.blocks.toFinset.card := by
    refine Finset.card_le_card fun c member => List.mem_toFinset.mpr ?_
    rcases Finset.mem_insert.mp member with rfl | between
    · exact inode
    · exact bitmap c (Finset.mem_Ico.mp between).1 (Finset.mem_Ico.mp between).2
  exact lt_of_lt_of_le (by decide) many

end Csc3150.FileSystem
