/-
**The free bit map as a finite set.**

`balloc` and `bfree` against the finite set `usedBlocks` of the blocks below `sb.size` that are marked.
The only assumptions are that the disk is small enough for the `int` counters of `balloc` and that
block 0 and the blocks of the map itself are marked.

* `balloc_full`, `balloc_hands` — `balloc` fails on a full disk, and otherwise hands out the least
  unmarked block (`HandedOut`);
* `bfree_clears` — `bfree` clears one bit (`OnlyBit`);
* `BitmapStep.refines` — one call is one step of the set (`SetStep`);
* `bitmap_refines_set` — the refinement, for every run of calls.
-/

import Csc3150.FileSystem.Blocks
import Csc3150.Library.Transition

namespace Csc3150.FileSystem

open ByteBuffer Transition

/-! ### The set and what is kept out of it -/

/-- The marked blocks of the disk. -/
def usedBlocks (sb : Superblock) (disk : Disk) : Finset Nat :=
  (Finset.range sb.size).filter fun b => marked sb disk b = true

@[simp] theorem mem_usedBlocks {sb : Superblock} {disk : Disk} {b : Nat} :
    b ∈ usedBlocks sb disk ↔ b < sb.size ∧ marked sb disk b = true := by
  rw [usedBlocks, Finset.mem_filter, Finset.mem_range]

/-- Block 0, which stands for no block, and the blocks of the map itself. -/
def Superblock.Reserved (sb : Superblock) (b : Nat) : Prop :=
  b = 0 ∨ ∃ c, c < sb.size ∧ b = BBLOCK c sb

/-- The reserved blocks are marked. -/
def ReservedMarked (sb : Superblock) (disk : Disk) : Prop :=
  ∀ b, b < sb.size → sb.Reserved b → marked sb disk b = true

/-! ### Changing one bit -/

/-- Bit `b` of the map has this value; every other bit of every block in `blocks` is as before. -/
def OnlyBit (sb : Superblock) (disk after : Disk) (b : Nat) (value : Bool) (blocks : Nat → Prop) :
    Prop :=
  ∀ c, blocks c → ∀ i, bit (after c) i =
    if c = BBLOCK b sb ∧ i = b % BPB then value else bit (disk c) i

/-- Block `b` was the least unmarked one; it is marked and zeroed, and nothing else changed. -/
structure HandedOut (sb : Superblock) (disk after : Disk) (b : Nat) : Prop where
  upper : b < sb.size
  free : marked sb disk b = false
  least : ∀ c, c < b → marked sb disk c = true
  zeroed : after b = fun _ => 0
  only : OnlyBit sb disk after b true (· ≠ b)

section Bits

variable {sb : Superblock} {disk after : Disk} {b : Nat}

theorem onlyBit_set (sb : Superblock) (disk : Disk) (b : Nat) (blocks : Nat → Prop) :
    OnlyBit sb disk (logWrite disk (BBLOCK b sb) (setBit (disk (BBLOCK b sb)) (b % BPB))) b true
      blocks := by
  intro c _ i
  by_cases same : c = BBLOCK b sb
  · subst same
    rw [logWrite_self, bit_setBit]
    by_cases here : i = b % BPB
    · rw [decide_eq_true here, Bool.true_or, if_pos ⟨rfl, here⟩]
    · rw [decide_eq_false here, Bool.false_or, if_neg fun both => here both.2]
  · rw [logWrite_of_ne _ _ same, if_neg fun both => same both.1]

theorem onlyBit_clear (sb : Superblock) (disk : Disk) (b : Nat) (blocks : Nat → Prop) :
    OnlyBit sb disk (logWrite disk (BBLOCK b sb) (clearBit (disk (BBLOCK b sb)) (b % BPB))) b false
      blocks := by
  intro c _ i
  by_cases same : c = BBLOCK b sb
  · subst same
    rw [logWrite_self, bit_clearBit]
    by_cases here : i = b % BPB
    · rw [decide_eq_true here, Bool.not_true, Bool.false_and, if_pos ⟨rfl, here⟩]
    · rw [decide_eq_false here, Bool.not_false, Bool.true_and, if_neg fun both => here both.2]
  · rw [logWrite_of_ne _ _ same, if_neg fun both => same both.1]

/-- Two block numbers with the same bit of the same bitmap block are equal. -/
theorem block_of_bit {b c : Nat} (sameBlock : BBLOCK c sb = BBLOCK b sb)
    (sameBit : c % BPB = b % BPB) : c = b := by
  unfold BBLOCK at sameBlock
  rw [BPB_eq] at *
  omega

/-- A change of one bit, seen in the set of marked blocks. -/
theorem OnlyBit.marked_eq {value : Bool} {blocks : Nat → Prop}
    (only : OnlyBit sb disk after b value blocks) {c : Nat} (inside : blocks (BBLOCK c sb)) :
    marked sb after c = if c = b then value else marked sb disk c := by
  rw [marked, only _ inside]
  by_cases same : c = b
  · rw [if_pos same, if_pos (by rw [same]; exact ⟨rfl, rfl⟩)]
  · rw [if_neg same, if_neg fun both => same (block_of_bit both.1 both.2), marked]

/-- A block handed out is none of the reserved ones. -/
theorem HandedOut.not_reserved (reserved : ReservedMarked sb disk)
    (handed : HandedOut sb disk after b) : ¬ sb.Reserved b := by
  intro isReserved
  have set := reserved b handed.upper isReserved
  rw [handed.free] at set
  cases set

theorem HandedOut.apart (reserved : ReservedMarked sb disk) (handed : HandedOut sb disk after b)
    {c : Nat} (upper : c < sb.size) : BBLOCK c sb ≠ b :=
  fun same => handed.not_reserved reserved (Or.inr ⟨c, upper, same.symm⟩)

theorem HandedOut.marked_eq (reserved : ReservedMarked sb disk) (handed : HandedOut sb disk after b)
    {c : Nat} (upper : c < sb.size) :
    marked sb after c = if c = b then true else marked sb disk c :=
  handed.only.marked_eq (handed.apart reserved upper)

end Bits

/-! ### The two functions -/

section Functions

variable {sb : Superblock} {disk : Disk}

/-- On a full disk `balloc` returns 0 and changes nothing. -/
theorem balloc_full (full : ∀ b, b < sb.size → marked sb disk b = true) :
    balloc sb disk = (disk, 0) := by
  cases scan : firstFree sb disk with
  | none => exact balloc_none scan
  | some counters =>
    obtain ⟨b, bi⟩ := counters
    obtain ⟨upper, -, -, free, -⟩ := firstFree_some scan
    rw [full _ upper] at free
    cases free

/-- On any other disk it hands out the least unmarked block. -/
theorem balloc_hands {b : Nat} (upper : b < sb.size)
    (free : marked sb disk b = false) :
    HandedOut sb disk (balloc sb disk).1 (balloc sb disk).2 := by
  cases scan : firstFree sb disk with
  | none =>
    rw [firstFree_none scan upper] at free
    cases free
  | some counters =>
    obtain ⟨b, bi⟩ := counters
    obtain ⟨upper, sameBlock, sameBit, free, least⟩ := firstFree_some scan
    rw [balloc_some scan]
    refine ⟨upper, free, least, logWrite_self _ _ _, fun c different i => ?_⟩
    have set := onlyBit_set sb disk (b + bi) (· ≠ b + bi) c different i
    rw [← sameBit, ← sameBlock] at set
    dsimp only
    rw [logWrite_of_ne _ _ different, set, ← sameBlock, ← sameBit]

theorem HandedOut.pos {after : Disk} {b : Nat} (reserved : ReservedMarked sb disk)
    (handed : HandedOut sb disk after b) : b ≠ 0 :=
  fun zero => handed.not_reserved reserved (Or.inl zero)

theorem balloc_eq_zero_iff (reserved : ReservedMarked sb disk) :
    (balloc sb disk).2 = 0 ↔ ∀ b, b < sb.size → marked sb disk b = true := by
  constructor
  · intro zero b upper
    by_contra clear
    exact (balloc_hands upper (Bool.eq_false_of_not_eq_true clear)).pos reserved zero
  · intro full
    rw [balloc_full full]

theorem balloc_ne_zero (reserved : ReservedMarked sb disk) (nonzero : (balloc sb disk).2 ≠ 0) :
    HandedOut sb disk (balloc sb disk).1 (balloc sb disk).2 := by
  have notFull := mt (balloc_eq_zero_iff reserved).mpr nonzero
  push Not at notFull
  obtain ⟨b, upper, clear⟩ := notFull
  exact balloc_hands upper (Bool.eq_false_of_not_eq_true clear)

/-- `bfree` of a marked block clears its bit and changes nothing else. -/
theorem bfree_clears {b : Nat} (used : marked sb disk b = true) :
    ∃ after, bfree sb disk b = .ok after ∧ OnlyBit sb disk after b false (fun _ => True) := by
  have set : ¬ bit (disk (BBLOCK b sb)) (b % BPB) = false := by
    rw [← marked, used]
    exact Bool.noConfusion
  exact ⟨_, bfree_set set, onlyBit_clear sb disk b _⟩

/-- A returning `bfree` had a marked block. -/
theorem bfree_ok {b : Nat} {after : Disk} (done : bfree sb disk b = .ok after) :
    marked sb disk b = true ∧ OnlyBit sb disk after b false (fun _ => True) := by
  have used : marked sb disk b = true := by
    by_contra clear
    have off : bit (disk (BBLOCK b sb)) (b % BPB) = false := Bool.eq_false_of_not_eq_true clear
    cases (bfree_clear off).symm.trans done
  obtain ⟨other, run, only⟩ := bfree_clears used
  rw [done] at run
  cases run
  exact ⟨used, only⟩

/-- Freeing the block that was just handed out restores the map. -/
theorem HandedOut.restore (reserved : ReservedMarked sb disk) {after : Disk} {b : Nat}
    (handed : HandedOut sb disk after b) :
    ∃ last, bfree sb after b = .ok last ∧ ∀ c, c ≠ b → ∀ i, bit (last c) i = bit (disk c) i := by
  have used : marked sb after b = true := by
    rw [handed.marked_eq reserved handed.upper, if_pos rfl]
  obtain ⟨last, run, cleared⟩ := bfree_clears used
  refine ⟨last, run, fun c different i => ?_⟩
  rw [cleared c trivial, handed.only c different]
  by_cases here : c = BBLOCK b sb ∧ i = b % BPB
  · rw [if_pos here, here.1, here.2]
    exact handed.free.symm
  · rw [if_neg here, if_neg here]

end Functions

/-! ### Runs -/

/-- What the file system does with the disk, as far as the map is concerned. -/
inductive BitmapCall where
  /-- `balloc` returned this. -/
  | balloc (b : Nat)
  /-- `bfree` of this block. -/
  | bfree (b : Nat)
  /-- A `log_write` of this block, which holds no part of the map. -/
  | write (bno : Nat)

/-- One call. What is freed is a data block. -/
inductive BitmapStep (sb : Superblock) : Disk → BitmapCall → Disk → Prop where
  | balloc (disk : Disk) : BitmapStep sb disk (.balloc (balloc sb disk).2) (balloc sb disk).1
  | bfree {disk after : Disk} {b : Nat} (upper : b < sb.size) (data : ¬ sb.Reserved b)
      (done : bfree sb disk b = .ok after) : BitmapStep sb disk (.bfree b) after
  | write (disk : Disk) {bno : Nat} (content : Block) (other : ∀ b, b < sb.size → BBLOCK b sb ≠ bno) :
      BitmapStep sb disk (.write bno) (logWrite disk bno content)

/-- The finite set: the least element that is missing is added, an element is taken out. -/
inductive SetStep (size : Nat) : Finset Nat → BitmapCall → Finset Nat → Prop where
  | full {used : Finset Nat} (all : ∀ b, b < size → b ∈ used) : SetStep size used (.balloc 0) used
  | balloc {used : Finset Nat} {b : Nat} (upper : b < size) (free : b ∉ used)
      (least : ∀ c, c < b → c ∈ used) : SetStep size used (.balloc b) (insert b used)
  | bfree {used : Finset Nat} {b : Nat} (member : b ∈ used) :
      SetStep size used (.bfree b) (used.erase b)
  | write (used : Finset Nat) (bno : Nat) : SetStep size used (.write bno) used

section Runs

variable {sb : Superblock} {disk after : Disk} {call : BitmapCall} {calls : List BitmapCall}

theorem HandedOut.usedBlocks_eq {b : Nat} (reserved : ReservedMarked sb disk)
    (handed : HandedOut sb disk after b) : usedBlocks sb after = insert b (usedBlocks sb disk) := by
  ext c
  rw [Finset.mem_insert, mem_usedBlocks, mem_usedBlocks]
  by_cases same : c = b
  · subst same
    rw [handed.marked_eq reserved handed.upper, if_pos rfl]
    exact iff_of_true ⟨handed.upper, rfl⟩ (Or.inl rfl)
  · rw [or_iff_right same]
    refine and_congr_right fun upper => ?_
    rw [handed.marked_eq reserved upper, if_neg same]

theorem OnlyBit.usedBlocks_eq {b : Nat} (only : OnlyBit sb disk after b false (fun _ => True)) :
    usedBlocks sb after = (usedBlocks sb disk).erase b := by
  ext c
  rw [Finset.mem_erase, mem_usedBlocks, mem_usedBlocks, only.marked_eq trivial]
  by_cases same : c = b
  · rw [if_pos same]
    exact iff_of_false (fun both => Bool.noConfusion both.2) (fun both => both.1 same)
  · rw [if_neg same, and_iff_right same]

theorem marked_write {bno c : Nat} (content : Block) (other : BBLOCK c sb ≠ bno) :
    marked sb (logWrite disk bno content) c = marked sb disk c := by
  rw [marked, logWrite_of_ne _ _ other, marked]

/-- The reserved blocks stay marked. -/
theorem BitmapStep.reserved (reserved : ReservedMarked sb disk) (step : BitmapStep sb disk call after) :
    ReservedMarked sb after := by
  intro b upper isReserved
  have before := reserved b upper isReserved
  cases step with
  | balloc =>
    by_cases zero : (FileSystem.balloc sb disk).2 = 0
    · rw [balloc_full ((balloc_eq_zero_iff reserved).mp zero)]
      exact before
    · have handed := balloc_ne_zero reserved zero
      rw [handed.marked_eq reserved upper, before, ite_self]
  | @bfree _ b' _ data done =>
    have different : b ≠ b' := fun same => data (same ▸ isReserved)
    rw [(bfree_ok done).2.marked_eq trivial, if_neg different]
    exact before
  | write content other =>
    rw [marked_write content (other b upper)]
    exact before

/-- One call is one step of the set. -/
theorem BitmapStep.refines (reserved : ReservedMarked sb disk) (step : BitmapStep sb disk call after) :
    SetStep sb.size (usedBlocks sb disk) call (usedBlocks sb after) := by
  cases step with
  | balloc =>
    by_cases zero : (FileSystem.balloc sb disk).2 = 0
    · have full := (balloc_eq_zero_iff reserved).mp zero
      rw [balloc_full full]
      exact .full fun b upper => mem_usedBlocks.mpr ⟨upper, full b upper⟩
    · have handed := balloc_ne_zero reserved zero
      rw [handed.usedBlocks_eq reserved]
      refine .balloc handed.upper (fun member => ?_) fun c below => ?_
      · rw [mem_usedBlocks, handed.free] at member
        exact Bool.noConfusion member.2
      · exact mem_usedBlocks.mpr ⟨below.trans handed.upper, handed.least c below⟩
  | bfree upper data done =>
    obtain ⟨used, only⟩ := bfree_ok done
    rw [only.usedBlocks_eq]
    exact .bfree (mem_usedBlocks.mpr ⟨upper, used⟩)
  | @write bno content other =>
    have same : usedBlocks sb (logWrite disk bno content) = usedBlocks sb disk := by
      ext c
      rw [mem_usedBlocks, mem_usedBlocks]
      exact and_congr_right fun upper => by rw [marked_write content (other c upper)]
    rw [same]
    exact .write (usedBlocks sb disk) bno

/-- What is in the set stays there until it is freed. -/
theorem SetStep.kept {size b : Nat} {used used' : Finset Nat} (step : SetStep size used call used')
    (notFreed : call ≠ .bfree b) (member : b ∈ used) : b ∈ used' := by
  cases step with
  | full => exact member
  | balloc => exact Finset.mem_insert_of_mem member
  | bfree => exact Finset.mem_erase_of_ne_of_mem (fun same => notFreed (by rw [same])) member
  | write => exact member

theorem kept_of_run {size b : Nat} {used used' : Finset Nat} (run : Run (SetStep size) used calls used')
    (notFreed : .bfree b ∉ calls) (member : b ∈ used) : b ∈ used' := by
  have apart : ∀ call ∈ calls, call ≠ .bfree b := fun call isCall same => notFreed (same ▸ isCall)
  exact @Run.invariant _ _ _ _ _ _ (fun s => b ∈ s)
    (fun _ _ _ holds step => step.1.kept step.2 holds) member (run.guard apart)

/-- **The bitmap refines a finite set.** -/
theorem bitmap_refines_set (size_le : sb.size ≤ 2 ^ 31 - BPB) (reserved : ReservedMarked sb disk) :
    (∀ b bi, b < sb.size → bi ≤ BPB → b + bi < 2 ^ 31) ∧
    ((balloc sb disk).2 = 0 ↔ ∀ b, b < sb.size → marked sb disk b = true) ∧
    ((balloc sb disk).2 = 0 → (balloc sb disk).1 = disk) ∧
    ((balloc sb disk).2 ≠ 0 → HandedOut sb disk (balloc sb disk).1 (balloc sb disk).2 ∧
      (∃ last, bfree sb (balloc sb disk).1 (balloc sb disk).2 = .ok last ∧
        ∀ c, c ≠ (balloc sb disk).2 → ∀ i, bit (last c) i = bit (disk c) i) ∧
      ∀ calls later, Run (BitmapStep sb) (balloc sb disk).1 calls later →
        .bfree (balloc sb disk).2 ∉ calls → (balloc sb later).2 ≠ (balloc sb disk).2) ∧
    (∀ b, b < sb.size → marked sb disk b = true → ∃ after, bfree sb disk b = .ok after ∧
      OnlyBit sb disk after b false (fun _ => True)) ∧
    ∀ calls after, Run (BitmapStep sb) disk calls after →
      Run (SetStep sb.size) (usedBlocks sb disk) calls (usedBlocks sb after) := by
  have refines : ∀ {start calls after}, ReservedMarked sb start →
      Run (BitmapStep sb) start calls after → Run (SetStep sb.size) (usedBlocks sb start) calls
        (usedBlocks sb after) :=
    fun marks run => run.simulate (fun _ _ _ holds step => step.reserved holds)
      (fun _ _ _ holds step => step.refines holds) marks
  refine ⟨fun b bi upper small => ?_, balloc_eq_zero_iff reserved, fun zero => ?_, fun nonzero => ?_,
    fun b _ used => bfree_clears used, fun calls after run => refines reserved run⟩
  · rw [BPB_eq] at *
    omega
  · rw [balloc_full ((balloc_eq_zero_iff reserved).mp zero)]
  · have handed := balloc_ne_zero reserved nonzero
    have reserved' := (BitmapStep.balloc disk).reserved reserved
    refine ⟨handed, handed.restore reserved, fun calls later run notFreed same => ?_⟩
    have here : (balloc sb disk).2 ∈ usedBlocks sb (balloc sb disk).1 := by
      rw [handed.usedBlocks_eq reserved]
      exact Finset.mem_insert_self _ _
    have still := kept_of_run (refines reserved' run) notFreed here
    have marks := run.invariant (fun _ _ _ holds step => step.reserved holds) reserved'
    have again := balloc_ne_zero marks (same ▸ nonzero)
    rw [← same, mem_usedBlocks, again.free] at still
    exact Bool.noConfusion still.2

end Runs

/-- A disk with two bitmap blocks, the second one partly used. -/
def raggedSuperblock : Superblock :=
  { size := 8200, nblocks := 8190, ninodes := 16, inodestart := 2, bmapstart := 3 }

/-- Blocks 0 to 8193 are marked. -/
def raggedDisk : Disk := fun bno i => if bno = 3 then 255 else if bno = 4 ∧ i = 0 then 3 else 0

theorem marked_raggedDisk {b : Nat} (upper : b < 8194) :
    marked raggedSuperblock raggedDisk b = true := by
  have ones : ∀ j, j < 8 → (255 : UInt8).toBitVec.getLsbD j = true := by decide
  have low : ∀ j, j < 2 → (3 : UInt8).toBitVec.getLsbD j = true := by decide
  by_cases first : b < BPB
  · have block : BBLOCK b raggedSuperblock = 3 := by
      rw [BBLOCK, Nat.div_eq_of_lt first]
      rfl
    rw [marked, block, bit_eq]
    exact ones _ (Nat.mod_lt _ (by decide))
  · rw [BPB_eq] at first
    have block : BBLOCK b raggedSuperblock = 4 := by
      show b / BPB + 3 = 4
      rw [BPB_eq]
      omega
    have byte : raggedDisk 4 (b % BPB / 8) = 3 := by
      rw [raggedDisk, if_neg (by decide), if_pos ⟨rfl, by rw [BPB_eq]; omega⟩]
    rw [marked, block, bit_eq, byte]
    exact low _ (by rw [BPB_eq]; omega)

/-- The first free block of that disk is the third one of the second bitmap block. -/
theorem bitmap_refines_set_ragged :
    HandedOut raggedSuperblock raggedDisk (balloc raggedSuperblock raggedDisk).1 8194 := by
  have reserved : ReservedMarked raggedSuperblock raggedDisk := by
    rintro b - (zero | ⟨c, upper, rfl⟩)
    · exact marked_raggedDisk (by omega)
    · refine marked_raggedDisk ?_
      have small : c < 8200 := upper
      show c / BPB + 3 < 8194
      rw [BPB_eq]
      omega
  obtain ⟨-, zeroIff, -, hands, -⟩ := bitmap_refines_set (by decide) reserved
  have free : marked raggedSuperblock raggedDisk 8194 = false := by decide +kernel
  have nonzero : (balloc raggedSuperblock raggedDisk).2 ≠ 0 := by
    intro zero
    rw [zeroIff.mp zero 8194 (by decide)] at free
    cases free
  have handed := (hands nonzero).1
  have number : (balloc raggedSuperblock raggedDisk).2 = 8194 := by
    rcases lt_trichotomy (balloc raggedSuperblock raggedDisk).2 8194 with below | same | above
    · have clear := handed.free
      rw [marked_raggedDisk below] at clear
      cases clear
    · exact same
    · rw [handed.least 8194 above] at free
      cases free
  rwa [number] at handed

end Csc3150.FileSystem
