/-
**How many blocks a run of writes logs.**

Writes at several offsets of one file log the inode's block, the data blocks they cover, the blocks they
allocate, the index blocks that get a new entry, and the bitmap blocks of the lowest free blocks.

* `logBlocks` — the number, from the state before the writes;
* `log_card` — the distinct blocks of a log;
* `Writes`, `Writes.accept` — what holds after every write of a run.
-/

import Csc3150.FileSystem.WriteLog

namespace Csc3150.FileSystem

open ByteBuffer Outcome Ownership

/-! ### Initial segments -/

/-- The numbers of a set below which it has less than `m` others. -/
def lowest (free : Set Nat) (m : Nat) : Set Nat :=
  {b | b ∈ free ∧ {c | c ∈ free ∧ c < b}.ncard < m}

theorem lowest_mono {free : Set Nat} {m m' : Nat} (le : m ≤ m') : lowest free m ⊆ lowest free m' :=
  fun _ member => ⟨member.1, member.2.trans_le le⟩

/-- An initial segment of a finite set is given by the number of its elements. -/
theorem eq_lowest {free taken : Set Nat} (finite : free.Finite) (sub : taken ⊆ free)
    (least : ∀ b c, b ∈ taken → c ∈ free → c < b → c ∈ taken) : taken = lowest free taken.ncard := by
  apply Set.Subset.antisymm
  · intro b member
    refine ⟨sub member, Set.ncard_lt_ncard ⟨fun c below => least b c member below.1 below.2, ?_⟩
      (finite.subset sub)⟩
    intro all
    exact lt_irrefl b (all member).2
  · intro b member
    by_contra outside
    have below : taken ⊆ {c | c ∈ free ∧ c < b} := by
      intro c isTaken
      refine ⟨sub isTaken, ?_⟩
      by_contra above
      rcases Nat.eq_or_lt_of_le (Nat.le_of_not_lt above) with rfl | less
      · exact outside isTaken
      · exact outside (least c b isTaken member.1 less)
    exact absurd member.2 (not_lt.mpr (Set.ncard_le_ncard below (finite.subset fun _ => And.left)))

/-! ### The number of blocks -/

instance : Finite Slot := by
  refine Finite.of_injective (β := (Fin NDIRECT ⊕ Fin 2) ⊕ (Fin NINDIRECT ⊕ Fin NINDIRECT) ⊕
    (Fin NINDIRECT × Fin NINDIRECT)) (fun slot => match slot with
      | .direct i => .inl (.inl i)
      | .indirect => .inl (.inr 0)
      | .indirectEntry j => .inr (.inl (.inl j))
      | .doubly => .inl (.inr 1)
      | .doublyIndex i => .inr (.inl (.inr i))
      | .doublyEntry i j => .inr (.inr (i, j))) ?_
  intro first second same
  cases first <;> cases second <;> simp_all

/-- The free blocks of the disk. -/
def freeBlocks (sb : Superblock) (disk : Disk) : Set Nat := {b | b < sb.size ∧ marked sb disk b = false}

theorem freeBlocks_finite (sb : Superblock) (disk : Disk) : (freeBlocks sb disk).Finite :=
  (Set.finite_lt_nat sb.size).subset fun _ => And.left

/-- The slots whose blocks are written when the slots of `fills` get a block and the file blocks `bns`
are stored. -/
def touched (fills : Set Slot) (bns : Set Nat) : Set Slot :=
  {slot | slot ∈ fills ∨ (∃ child ∈ fills, ∃ i, child.place = .inr (slot, i)) ∨
    ∃ bn ∈ bns, slot = slotOf bn}

/-- The inode's block, the blocks of the touched slots, and the bitmap blocks of the lowest free
blocks. -/
noncomputable def logBlocks (sb : Superblock) (disk : Disk) (fills : Set Slot) (bns : Set Nat) : Nat :=
  1 + (touched fills bns).ncard +
    (Set.image (fun b => BBLOCK b sb) (lowest (freeBlocks sb disk) fills.ncard)).ncard

/-- The empty slots on the way to the file blocks `bns`. -/
def missing (disk : Disk) (addrs : Fin (NDIRECT + 2) → Nat) (bns : Set Nat) : Set Slot :=
  {slot | pointer disk addrs slot = 0 ∧ ∃ bn ∈ bns, slot ∈ (slotOf bn).path}

theorem touched_mono {fills fills' : Set Slot} {bns bns' : Set Nat} (more : fills ⊆ fills')
    (more' : bns ⊆ bns') : touched fills bns ⊆ touched fills' bns' := by
  intro slot member
  rcases member with fill | ⟨child, fill, here⟩ | ⟨bn, member, rfl⟩
  · exact Or.inl (more fill)
  · exact Or.inr (Or.inl ⟨child, more fill, here⟩)
  · exact Or.inr (Or.inr ⟨bn, more' member, rfl⟩)

theorem logBlocks_mono {sb : Superblock} {disk : Disk} {fills fills' : Set Slot} {bns bns' : Set Nat}
    (more : fills ⊆ fills') (more' : bns ⊆ bns') :
    logBlocks sb disk fills bns ≤ logBlocks sb disk fills' bns' := by
  refine Nat.add_le_add (Nat.add_le_add_left ?_ 1) ?_
  · exact Set.ncard_le_ncard (touched_mono more more') (Set.toFinite _)
  · have finite : (lowest (freeBlocks sb disk) fills'.ncard).Finite :=
      (freeBlocks_finite sb disk).subset fun _ => And.left
    exact Set.ncard_le_ncard (Set.image_mono (lowest_mono (Set.ncard_le_ncard more (Set.toFinite _))))
      (finite.image _)

section Count

variable {sb : Superblock} {disk after : Disk} {addrs addrs' : Fin (NDIRECT + 2) → Nat}

/-- The blocks that are no longer free are those of the filled slots. -/
theorem Extends.newly_marked (step : Extends sb disk addrs after addrs') :
    {b | b ∈ freeBlocks sb disk ∧ marked sb after b = true} =
      Set.image (pointer after addrs') {slot | Filled disk addrs after addrs' slot} := by
  ext b
  constructor
  · rintro ⟨⟨small, clear⟩, set⟩
    exact step.handed b small clear set
  · rintro ⟨slot, filled, rfl⟩
    obtain ⟨small, clear, set⟩ := step.taken slot filled
    exact ⟨⟨small, clear⟩, set⟩

theorem Tree.injOn {slots : Set Slot} (tree : Tree sb after addrs')
    (nonzero : ∀ slot ∈ slots, pointer after addrs' slot ≠ 0) : Set.InjOn (pointer after addrs') slots :=
  fun _ member _ _ same => (tree.unique (nonzero _ member) same.symm).symm

/-- As many blocks were taken as slots were filled, and they were the lowest free ones. -/
theorem Extends.taken_lowest (step : Extends sb disk addrs after addrs') (tree : Tree sb after addrs') :
    Set.image (pointer after addrs') {slot | Filled disk addrs after addrs' slot} =
      lowest (freeBlocks sb disk) {slot | Filled disk addrs after addrs' slot}.ncard := by
  have injective : Set.InjOn (pointer after addrs') {slot | Filled disk addrs after addrs' slot} :=
    tree.injOn fun slot filled => filled.2
  have count := injective.ncard_image
  rw [← count, ← step.newly_marked]
  apply eq_lowest (freeBlocks_finite sb disk) fun b => And.left
  intro b c isTaken free less
  exact ⟨free, step.least b c isTaken.1.1 isTaken.1.2 isTaken.2 less⟩

section Space

variable {bns : Set Nat} (step : Extends sb disk addrs after addrs') (tree : Tree sb after addrs')
  (filled : ∀ slot, Filled disk addrs after addrs' slot → ∃ bn ∈ bns, slot ∈ (slotOf bn).path)

include step tree filled

/-- When no block is left and a block could not be had, fewer were free than were missing. -/
theorem Extends.no_room (full : Full sb after) {bn : Nat} (wanted : bn ∈ bns)
    (zero : pointer after addrs' (slotOf bn) = 0) :
    (freeBlocks sb disk).ncard < (missing disk addrs bns).ncard := by
  have taken : freeBlocks sb disk = Set.image (pointer after addrs')
      {slot | Filled disk addrs after addrs' slot} := by
    rw [← step.newly_marked]
    ext b
    exact ⟨fun free => ⟨free, full b free.1⟩, And.left⟩
  rw [taken, (tree.injOn fun slot filled => filled.2).ncard_image]
  refine Set.ncard_lt_ncard ⟨fun slot isFilled => ⟨isFilled.1, filled slot isFilled⟩, fun all => ?_⟩
    (Set.toFinite _)
  have empty : pointer disk addrs (slotOf bn) = 0 := by
    by_contra nonzero
    exact nonzero ((step.kept _ nonzero).symm.trans zero)
  exact (all ⟨empty, bn, wanted, Slot.mem_path_self _⟩).2 zero

/-- The blocks that were missing are no longer free. -/
theorem Extends.room (present : ∀ bn ∈ bns, pointer after addrs' (slotOf bn) ≠ 0) :
    (freeBlocks sb after).ncard + (missing disk addrs bns).ncard = (freeBlocks sb disk).ncard := by
  have all : {slot | Filled disk addrs after addrs' slot} = missing disk addrs bns := by
    ext slot
    constructor
    · exact fun isFilled => ⟨isFilled.1, filled slot isFilled⟩
    · rintro ⟨zero, bn, wanted, member⟩
      exact ⟨zero, pointer_path member (present bn wanted)⟩
  have split : freeBlocks sb disk = freeBlocks sb after ∪
      {b | b ∈ freeBlocks sb disk ∧ marked sb after b = true} := by
    ext b
    constructor
    · intro free
      cases isMarked : marked sb after b with
      | true => exact Or.inr ⟨free, isMarked⟩
      | false => exact Or.inl ⟨free.1, isMarked⟩
    · rintro (⟨small, clear⟩ | ⟨free, -⟩)
      · refine ⟨small, Bool.eq_false_iff.mpr fun was => ?_⟩
        exact absurd (clear.symm.trans (step.marks b small was)) Bool.false_ne_true
      · exact free
  have apart : Disjoint (freeBlocks sb after) {b | b ∈ freeBlocks sb disk ∧ marked sb after b = true} := by
    refine Set.disjoint_left.mpr fun b clear taken => ?_
    exact absurd (clear.2.symm.trans taken.2) Bool.false_ne_true
  rw [split, Set.ncard_union_eq apart (freeBlocks_finite sb after)
    ((freeBlocks_finite sb disk).subset fun _ => And.left), step.newly_marked,
    (tree.injOn fun slot filled => filled.2).ncard_image, all]

end Space

/-- **The number of distinct blocks of a log.** -/
theorem log_card (layout : sb.WellFormed) (step : Extends sb disk addrs after addrs')
    (tree : Tree sb after addrs') {inum : Nat} (inside : inum < sb.ninodes) {stored : Set Nat}
    (present : ∀ bn ∈ stored, pointer after addrs' (slotOf bn) ≠ 0) {log : List Nat}
    (blocks : ∀ x, x ∈ log ↔ x = IBLOCK inum sb ∨ Fresh sb disk addrs after addrs' x ∨
      ∃ bn ∈ stored, x = pointer after addrs' (slotOf bn)) :
    log.toFinset.card =
      logBlocks sb disk {slot | Filled disk addrs after addrs' slot} stored := by
  obtain ⟨fills, isFills⟩ : ∃ fills, fills = {slot | Filled disk addrs after addrs' slot} := ⟨_, rfl⟩
  have member : ∀ slot, slot ∈ fills ↔ Filled disk addrs after addrs' slot := by
    intro slot
    rw [isFills]
    exact Iff.rfl
  have nonzero : ∀ slot ∈ touched fills stored, pointer after addrs' slot ≠ 0 := by
    rintro slot (fill | ⟨child, fill, i, here⟩ | ⟨bn, isStored, rfl⟩)
    · exact ((member slot).mp fill).2
    · exact parent_ne_zero here ((member child).mp fill).2
    · exact present bn isStored
  obtain ⟨data, isData⟩ : ∃ data, data = Set.image (pointer after addrs') (touched fills stored) :=
    ⟨_, rfl⟩
  obtain ⟨bitmap, isBitmap⟩ : ∃ bitmap, bitmap = Set.image (fun b => BBLOCK b sb)
    (Set.image (pointer after addrs') fills) := ⟨_, rfl⟩
  have isSet : (log.toFinset : Set Nat) = insert (IBLOCK inum sb) (data ∪ bitmap) := by
    ext x
    rw [List.coe_toFinset, Set.mem_ofPred_eq, blocks, Set.mem_insert_iff, Set.mem_union, isData,
      isBitmap]
    refine or_congr_right ?_
    constructor
    · rintro (⟨slot, filled, rfl | rfl | ⟨parent, i, here, rfl⟩⟩ | ⟨bn, isStored, rfl⟩)
      · exact Or.inl ⟨slot, Or.inl ((member slot).mpr filled), rfl⟩
      · exact Or.inr ⟨_, ⟨slot, (member slot).mpr filled, rfl⟩, rfl⟩
      · exact Or.inl ⟨parent, Or.inr (Or.inl ⟨slot, (member slot).mpr filled, i, here⟩), rfl⟩
      · exact Or.inl ⟨_, Or.inr (Or.inr ⟨bn, isStored, rfl⟩), rfl⟩
    · rintro (⟨slot, fill | ⟨child, fill, i, here⟩ | ⟨bn, isStored, rfl⟩, rfl⟩ |
        ⟨_, ⟨slot, fill, rfl⟩, rfl⟩)
      · exact Or.inl ⟨slot, (member slot).mp fill, Or.inl rfl⟩
      · exact Or.inl ⟨child, (member child).mp fill, Or.inr (Or.inr ⟨slot, i, here, rfl⟩)⟩
      · exact Or.inr ⟨bn, isStored, rfl⟩
      · exact Or.inl ⟨slot, (member slot).mp fill, Or.inr (Or.inl rfl)⟩
  have finite : data.Finite ∧ bitmap.Finite := by
    rw [isData, isBitmap]
    exact ⟨(Set.toFinite _).image _, ((Set.toFinite _).image _).image _⟩
  -- the inode block, the bitmap and the data blocks lie in different parts of the disk
  have apart : Disjoint data bitmap := by
    rw [isData, isBitmap, Set.disjoint_left]
    rintro x ⟨slot, isTouched, rfl⟩ ⟨_, ⟨other, fill, rfl⟩, same⟩
    have filled := nonzero other (Or.inl fill)
    exact layout.ne_BBLOCK (tree.upper filled) (Or.inr (tree.lower (nonzero slot isTouched))) same.symm
  have alone : IBLOCK inum sb ∉ data ∪ bitmap := by
    rw [isData, isBitmap]
    rintro (⟨slot, isTouched, same⟩ | ⟨_, ⟨slot, fill, rfl⟩, same⟩)
    · have upper := tree.upper (nonzero slot isTouched)
      have lower := tree.lower (nonzero slot isTouched)
      have below := layout.inodes_below _ inside
      have bits := layout.bitmap_below _ upper
      have : sb.bmapstart ≤ BBLOCK (pointer after addrs' slot) sb := Nat.le_add_left _ _
      omega
    · have filled := nonzero slot (Or.inl fill)
      exact layout.ne_BBLOCK (tree.upper filled) (layout.outside_IBLOCK inside) same.symm
  rw [← Set.ncard_coe_finset, isSet, Set.ncard_insert_of_notMem alone (finite.1.union finite.2),
    Set.ncard_union_eq apart finite.1 finite.2, isData, (tree.injOn nonzero).ncard_image,
    isBitmap, isFills, step.taken_lowest tree, logBlocks]
  omega

end Count

/-! ### Writes at several offsets -/

/-- The numbers of the file blocks with a byte of a write of `n` bytes at one of the offsets. -/
def coveredBlocks (n : Nat) (offs : List UInt32) : Set Nat :=
  {bn | ∃ off ∈ offs, ∃ k, off.toNat ≤ k ∧ k < off.toNat + n ∧ bn = k / BSIZE}

theorem coveredBlocks_mono {n : Nat} {offs offs' : List UInt32} (more : ∀ off ∈ offs, off ∈ offs') :
    coveredBlocks n offs ⊆ coveredBlocks n offs' :=
  fun _ ⟨off, member, covered⟩ => ⟨off, more off member, covered⟩

instance {size : Nat} {off n : UInt32} : Decidable (Rejects size off n) :=
  inferInstanceAs (Decidable (_ ∨ _ ∨ _))

/-- The offsets up to the first at which a write of `n` bytes is turned down, when each write makes the
file as long as it should. -/
def acceptedOffsets (n : UInt32) : (size : Nat) → List UInt32 → List UInt32
  | _, [] => []
  | size, off :: rest =>
    if Rejects size off n then []
    else off :: acceptedOffsets n (max size (off.toNat + n.toNat)) rest

/-- An open inode, the disk, and the blocks that were passed to `log_write`, the latest first. -/
structure Opened where
  disk : Disk
  inode : Inode
  log : List Nat

namespace Opened

variable (sb : Superblock)

/-- `writei` from memory that can be read. -/
def writei (o : Opened) (off : UInt32) (bytes : List UInt8) : Int × Opened :=
  match writeiLogged sb ⟨o.disk, o.log⟩ o.inode (.kernel bytes) off (UInt32.ofNat bytes.length) with
  | .ok result => (result.2.2, ⟨result.1.disk, result.2.1, result.1.blocks⟩)
  | .error _ => (-1, o)

/-- Writes in order, up to the first that is turned down. -/
def writeAll : List (UInt32 × List UInt8) → Opened → Bool × Opened
  | [], o => (true, o)
  | page :: rest, o =>
    if (o.writei sb page.1 page.2).1 < 0 then (false, (o.writei sb page.1 page.2).2)
    else writeAll rest (o.writei sb page.1 page.2).2

/-- The number of blocks that writes of `n` bytes at the offsets log. -/
noncomputable def logSpace (n : UInt32) (o : Opened) (offs : List UInt32) : Nat :=
  let covered := coveredBlocks n.toNat (acceptedOffsets n o.inode.size offs)
  logBlocks sb o.disk (missing o.disk o.inode.addrs covered) covered

/-- The disk has a free block for every empty slot on the way to the blocks that are written. -/
def Room (n : UInt32) (o : Opened) (offs : List UInt32) : Prop :=
  (missing o.disk o.inode.addrs (coveredBlocks n.toNat (acceptedOffsets n o.inode.size offs))).ncard ≤
    (freeBlocks sb o.disk).ncard

end Opened

/-- After writes of `n` bytes at the offsets, which stored the file blocks of `stored`. -/
structure Writes (sb : Superblock) (n : Nat) (start o : Opened) (offs : List UInt32)
    (stored : Set Nat) : Prop where
  image : Image sb o.disk
  cached : Cached sb o.disk o.inode
  number : o.inode.inum = start.inode.inum
  step : Extends sb start.disk start.inode.addrs o.disk o.inode.addrs
  filled : ∀ slot, Filled start.disk start.inode.addrs o.disk o.inode.addrs slot →
    ∃ bn ∈ coveredBlocks n offs, slot ∈ (slotOf bn).path
  covers : stored ⊆ coveredBlocks n offs
  present : ∀ bn ∈ stored, pointer o.disk o.inode.addrs (slotOf bn) ≠ 0
  /-- Not every block is stored only when the disk is full. -/
  stops : stored = coveredBlocks n offs ∨ Full sb o.disk ∧
    ∃ bn ∈ coveredBlocks n offs, pointer o.disk o.inode.addrs (slotOf bn) = 0
  blocks : ∀ x, x ∈ o.log ↔ (offs ≠ [] ∧ x = IBLOCK start.inode.inum sb) ∨
    Fresh sb start.disk start.inode.addrs o.disk o.inode.addrs x ∨
    ∃ bn ∈ stored, x = pointer o.disk o.inode.addrs (slotOf bn)

section Writes

variable {sb : Superblock} {n : UInt32} {start o : Opened} {offs : List UInt32} {stored : Set Nat}

theorem acceptedOffsets_mono {size size' : Nat} (le : size ≤ size') {off : UInt32}
    (member : off ∈ acceptedOffsets n size offs) : off ∈ acceptedOffsets n size' offs := by
  induction offs generalizing size size' with
  | nil => exact member
  | cons first rest ih =>
    rw [acceptedOffsets] at member ⊢
    split_ifs at member with rejects
    · cases member
    · have accepts : ¬ Rejects size' first n := by
        unfold Rejects at rejects ⊢
        omega
      rw [if_neg accepts]
      rcases List.mem_cons.mp member with rfl | later
      · exact List.mem_cons_self
      · exact List.mem_cons_of_mem _ (ih (max_le_max_right _ le) later)

theorem Writes.refl (image : Image sb o.disk) (cached : Cached sb o.disk o.inode) (fresh : o.log = []) :
    Writes sb n.toNat o o [] ∅ where
  image := image
  cached := cached
  number := rfl
  step := .refl
  filled slot filled := absurd filled.1 filled.2
  covers := Set.empty_subset _
  present bn member := absurd member (Set.notMem_empty bn)
  stops := by
    refine Or.inl (Set.eq_empty_of_forall_notMem fun bn => ?_).symm
    rintro ⟨off, member, -⟩
    exact List.not_mem_nil member
  blocks x := by
    rw [fresh]
    refine iff_of_false List.not_mem_nil ?_
    rintro (⟨some, -⟩ | fresh | ⟨bn, member, -⟩)
    · exact some rfl
    · exact not_fresh_of_same (fun _ => rfl) fresh
    · exact Set.notMem_empty bn member

/-- On a full disk an empty slot stays empty. -/
theorem Extends.stays_empty {disk after : Disk} {addrs addrs' : Fin (NDIRECT + 2) → Nat} {slot : Slot}
    (step : Extends sb disk addrs after addrs') (full : Full sb disk)
    (zero : pointer disk addrs slot = 0) :
    pointer after addrs' slot = 0 := by
  by_contra nonzero
  obtain ⟨small, clear, -⟩ := step.taken slot ⟨zero, nonzero⟩
  rw [full _ small] at clear
  cases clear

/-- A write that is not turned down, with the log. -/
theorem Opened.writei_accepts (image : Image sb o.disk) (cached : Cached sb o.disk o.inode)
    {off : UInt32} {bytes : List UInt8} (length : bytes.length = n.toNat)
    (accepts : ¬ Rejects o.inode.size off n) :
    ∃ after ip' tot new,
      FileSystem.writei sb o.disk o.inode (.kernel bytes) off n = .ok (after, ip', ((tot : Nat) : Int)) ∧
      o.writei sb off bytes = ((tot : Int), ⟨after, ip', IBLOCK o.inode.inum sb :: (new ++ o.log)⟩) ∧
      Logs sb o.disk o.inode off.toNat n.toNat (IBLOCK o.inode.inum sb :: new) after ip' tot := by
  have quiet : ∀ tot m, (CopyIn.kernel bytes).fault tot m = none := fun _ _ => rfl
  have same : UInt32.ofNat bytes.length = n := by
    rw [length, UInt32.ofNat_toNat]
  obtain ⟨after, ip', tot, new, run, logged, logs⟩ := writei_log image cached quiet accepts
  exact ⟨after, ip', tot, new, run, by rw [Opened.writei, same, logged], logs⟩

/-- **One more write.** -/
theorem Writes.accept (writes : Writes sb n.toNat start o offs stored) {off : UInt32}
    {bytes : List UInt8} (length : bytes.length = n.toNat) (accepts : ¬ Rejects o.inode.size off n) :
    ∃ tot o' stored', o.writei sb off bytes = (((tot : Nat) : Int), o') ∧
      Writes sb n.toNat start o' (offs ++ [off]) stored' ∧
      Extends sb o.disk o.inode.addrs o'.disk o'.inode.addrs ∧
      o'.inode.size ≤ max o.inode.size (off.toNat + n.toNat) ∧
      (o'.inode.size = max o.inode.size (off.toNat + n.toNat) ∨ Full sb o'.disk ∧
        ∃ bn ∈ coveredBlocks n.toNat (offs ++ [off]),
          pointer o'.disk o'.inode.addrs (slotOf bn) = 0) := by
  obtain ⟨after, ip', tot, new, -, result, logs⟩ :=
    Opened.writei_accepts writes.image writes.cached length accepts
  obtain ⟨latest, isLatest⟩ : ∃ latest : Set Nat,
      latest = {bn | ∃ k, off.toNat ≤ k ∧ k < off.toNat + tot ∧ bn = k / BSIZE} := ⟨_, rfl⟩
  have grows : coveredBlocks n.toNat offs ⊆ coveredBlocks n.toNat (offs ++ [off]) :=
    coveredBlocks_mono fun _ => List.mem_append_left _
  have recent : ∀ k, off.toNat ≤ k → k < off.toNat + n.toNat →
      k / BSIZE ∈ coveredBlocks n.toNat (offs ++ [off]) := fun k lower less =>
    ⟨off, List.mem_append_right _ List.mem_cons_self, k, lower, less, rfl⟩
  have short : tot < n.toNat → Full sb after ∧ ∃ bn ∈ coveredBlocks n.toNat (offs ++ [off]),
      pointer after ip'.addrs (slotOf bn) = 0 := fun less =>
    ⟨(logs.full less).1, _, recent (off.toNat + tot) (Nat.le_add_right _ _) (by omega),
      (logs.full less).2⟩
  have kept : ∀ bn ∈ stored, pointer after ip'.addrs (slotOf bn) =
      pointer o.disk o.inode.addrs (slotOf bn) :=
    fun bn member => logs.step.kept _ (writes.present bn member)
  have upper := logs.upper
  refine ⟨tot, _, stored ∪ latest, result, ⟨logs.image, logs.cached, logs.number.trans writes.number,
    writes.step.trans logs.step, fun slot isFilled => ?_, ?_, ?_, ?_, fun x => ?_⟩, logs.step, ?_, ?_⟩
  · rcases (writes.step.filled_iff logs.step).mp isFilled with early | late
    · obtain ⟨bn, covered, member⟩ := writes.filled slot early
      exact ⟨bn, grows covered, member⟩
    · obtain ⟨k, lower, less, member⟩ := logs.filled slot late
      exact ⟨_, recent k lower less, member⟩
  · rw [isLatest]
    rintro bn (early | ⟨k, lower, less, rfl⟩)
    · exact grows (writes.covers early)
    · exact recent k lower (by omega)
  · rw [isLatest]
    rintro bn (early | ⟨k, lower, less, rfl⟩)
    · dsimp only
      rw [kept bn early]
      exact writes.present bn early
    · exact logs.mapped k lower less
  · rcases Nat.eq_or_lt_of_le upper with all | less
    · rcases writes.stops with whole | ⟨full, bn, covered, zero⟩
      · left
        rw [isLatest, all, whole]
        ext bn
        constructor
        · rintro (early | ⟨k, lower, less, rfl⟩)
          · exact grows early
          · exact recent k lower less
        · rintro ⟨other, member, covered⟩
          rcases List.mem_append.mp member with early | last
          · exact Or.inl ⟨other, early, covered⟩
          · rw [List.mem_singleton.mp last] at covered
            exact Or.inr covered
      · right
        exact ⟨fun b small => logs.step.marks b small (full b small), bn, grows covered,
          logs.step.stays_empty full zero⟩
    · exact Or.inr (short less)
  · have early : (∃ bn ∈ stored, x = pointer o.disk o.inode.addrs (slotOf bn)) ↔
        ∃ bn ∈ stored, x = pointer after ip'.addrs (slotOf bn) := by
      refine exists_congr fun bn => and_congr_right fun member => ?_
      rw [kept bn member]
    have late : Stored after ip'.addrs off.toNat (off.toNat + tot) x ↔
        ∃ bn ∈ latest, x = pointer after ip'.addrs (slotOf bn) := by
      rw [isLatest]
      constructor
      · rintro ⟨k, lower, less, isX⟩
        exact ⟨_, ⟨k, lower, less, rfl⟩, isX⟩
      · rintro ⟨bn, ⟨k, lower, less, rfl⟩, isX⟩
        exact ⟨k, lower, less, isX⟩
    have both : (∃ bn ∈ stored ∪ latest, x = pointer after ip'.addrs (slotOf bn)) ↔
        (∃ bn ∈ stored, x = pointer after ip'.addrs (slotOf bn)) ∨
          ∃ bn ∈ latest, x = pointer after ip'.addrs (slotOf bn) := by
      simp only [Set.mem_union, or_and_right, exists_or]
    show x ∈ (IBLOCK o.inode.inum sb :: new) ++ o.log ↔ _
    rw [List.mem_append, logs.blocks, writes.blocks, writes.number, early, late,
      writes.step.fresh_iff logs.step, both]
    have some : offs ++ [off] ≠ [] := List.append_ne_nil_of_right_ne_nil _ (List.cons_ne_nil _ _)
    rw [and_iff_right some]
    constructor
    · rintro ((inode | fresh | isStored) | ⟨-, inode⟩ | fresh | isStored)
      · exact Or.inl inode
      · exact Or.inr (Or.inl (Or.inr fresh))
      · exact Or.inr (Or.inr (Or.inr isStored))
      · exact Or.inl inode
      · exact Or.inr (Or.inl (Or.inl fresh))
      · exact Or.inr (Or.inr (Or.inl isStored))
    · rintro (inode | (fresh | fresh) | isStored | isStored)
      · exact Or.inl (Or.inl inode)
      · exact Or.inr (Or.inr (Or.inl fresh))
      · exact Or.inl (Or.inr (Or.inl fresh))
      · exact Or.inr (Or.inr (Or.inr isStored))
      · exact Or.inl (Or.inr (Or.inr isStored))
  · dsimp only
    rw [logs.size]
    omega
  · dsimp only
    rcases Nat.eq_or_lt_of_le upper with all | less
    · left
      rw [logs.size, all]
    · exact Or.inr (short less)

/-- A write that is turned down changes nothing. -/
theorem Opened.writei_rejects {off : UInt32} {bytes : List UInt8} (length : bytes.length = n.toNat)
    (rejects : Rejects o.inode.size off n) : o.writei sb off bytes = (-1, o) := by
  have same : UInt32.ofNat bytes.length = n := by
    rw [length, UInt32.ofNat_toNat]
  rw [Opened.writei, same, writeiLogged, writeiWith_rejects rejects]

/-- **A run of writes** stores the blocks at some of the accepted offsets, and at all of them unless the
disk is full. -/
theorem Writes.run {pages : List (UInt32 × List UInt8)}
    (whole : ∀ page ∈ pages, page.2.length = n.toNat) (writes : Writes sb n.toNat start o offs stored) :
    ∃ extra stored', Writes sb n.toNat start (Opened.writeAll sb pages o).2 (offs ++ extra) stored' ∧
      Extends sb o.disk o.inode.addrs (Opened.writeAll sb pages o).2.disk
        (Opened.writeAll sb pages o).2.inode.addrs ∧
      (∀ off ∈ extra, off ∈ acceptedOffsets n o.inode.size (pages.map Prod.fst)) ∧
      (stored' = coveredBlocks n.toNat (offs ++ extra) →
        extra = acceptedOffsets n o.inode.size (pages.map Prod.fst)) := by
  induction pages generalizing o offs stored with
  | nil =>
    refine ⟨[], stored, ?_, .refl, fun off member => absurd member List.not_mem_nil, fun _ => rfl⟩
    rw [List.append_nil]
    exact writes
  | cons page rest ih =>
    have length := whole page List.mem_cons_self
    rw [Opened.writeAll, List.map_cons, acceptedOffsets]
    by_cases rejects : Rejects o.inode.size page.1 n
    · have negative : ((-1, o) : Int × Opened).1 < 0 := Int.negSucc_lt_zero 0
      rw [Opened.writei_rejects length rejects, if_pos negative, if_pos rejects]
      refine ⟨[], stored, ?_, .refl, fun off member => absurd member List.not_mem_nil, fun _ => rfl⟩
      rw [List.append_nil]
      exact writes
    · obtain ⟨tot, o', stored', result, more, step, upper, size⟩ := writes.accept length rejects
      have accepted : ¬ ((tot : Int) < 0) := not_lt.mpr (Int.natCast_nonneg tot)
      rw [result, if_neg accepted, if_neg rejects]
      obtain ⟨extra, final, all, step', among, complete⟩ :=
        ih (fun other member => whole other (List.mem_cons_of_mem _ member)) more
      rw [List.append_assoc, List.singleton_append] at all complete
      refine ⟨page.1 :: extra, final, all, step.trans step', fun off member => ?_, fun stores => ?_⟩
      · rcases List.mem_cons.mp member with rfl | later
        · exact List.mem_cons_self
        · exact List.mem_cons_of_mem _ (acceptedOffsets_mono upper (among off later))
      · rcases size with grown | ⟨full, bn, covered, zero⟩
        · rw [← grown, complete stores]
        · -- the block that was not stored for want of space is still empty
          have isStored : bn ∈ final := by
            rw [stores]
            refine coveredBlocks_mono (fun off member => ?_) covered
            rcases List.mem_append.mp member with early | last
            · exact List.mem_append_left _ early
            · rw [List.mem_singleton.mp last]
              exact List.mem_append_right _ List.mem_cons_self
          exact absurd (step'.stays_empty full zero) (all.present bn isStored)

theorem lowest_zero (free : Set Nat) : lowest free 0 = ∅ :=
  Set.eq_empty_of_forall_notMem fun _ member => Nat.not_lt_zero _ member.2

/-- Without a block to allocate, only the inode's block and the blocks that are stored are logged. -/
theorem logBlocks_stored (disk : Disk) (bns : Set Nat) :
    logBlocks sb disk ∅ bns = 1 + (slotOf '' bns).ncard := by
  have slots : touched ∅ bns = slotOf '' bns := by
    ext slot
    constructor
    · rintro (fill | ⟨child, fill, -⟩ | ⟨bn, member, rfl⟩)
      · exact absurd fill (Set.notMem_empty slot)
      · exact absurd fill (Set.notMem_empty child)
      · exact ⟨bn, member, rfl⟩
    · rintro ⟨bn, member, rfl⟩
      exact Or.inr (Or.inr ⟨bn, member, rfl⟩)
  rw [logBlocks, slots, Set.ncard_empty, lowest_zero, Set.image_empty, Set.ncard_empty, Nat.add_zero]

theorem coveredBlocks_nil (n : Nat) : coveredBlocks n [] = ∅ :=
  Set.eq_empty_of_forall_notMem fun _ member => List.not_mem_nil member.choose_spec.1

theorem missing_empty (disk : Disk) (addrs : Fin (NDIRECT + 2) → Nat) : missing disk addrs ∅ = ∅ :=
  Set.eq_empty_of_forall_notMem fun _ member => Set.notMem_empty _ member.2.choose_spec.1

/-- Writes of which none is accepted log no more than the inode's block. -/
theorem Opened.logSpace_none {o : Opened} {offs : List UInt32}
    (none : acceptedOffsets n o.inode.size offs = []) : o.logSpace sb n offs = 1 := by
  rw [Opened.logSpace, none, coveredBlocks_nil, missing_empty, logBlocks_stored, Set.image_empty,
    Set.ncard_empty]

/-- The filled slots of a run that stored every block are the missing ones. -/
theorem Writes.filled_iff (writes : Writes sb n.toNat start o offs stored)
    (all : stored = coveredBlocks n.toNat offs) :
    {slot | Filled start.disk start.inode.addrs o.disk o.inode.addrs slot} =
      missing start.disk start.inode.addrs (coveredBlocks n.toNat offs) := by
  ext slot
  constructor
  · intro isFilled
    exact ⟨isFilled.1, writes.filled slot isFilled⟩
  · rintro ⟨zero, bn, covered, member⟩
    exact ⟨zero, pointer_path member (writes.present bn (all ▸ covered))⟩

/-- A run that did not store every block had not enough free blocks. -/
theorem Writes.no_room (writes : Writes sb n.toNat start o offs stored) (full : Full sb o.disk)
    {bn : Nat} (covered : bn ∈ coveredBlocks n.toNat offs)
    (zero : pointer o.disk o.inode.addrs (slotOf bn) = 0) :
    (freeBlocks sb start.disk).ncard <
      (missing start.disk start.inode.addrs (coveredBlocks n.toNat offs)).ncard := by
  have tree := writes.image.owned.tree writes.cached.inUse
  rw [← writes.cached.same] at tree
  exact writes.step.no_room tree writes.filled full covered zero

/-- **The log of a run of writes**: its blocks are counted in the state before the run. -/
theorem Opened.writeAll_log (image : Image sb o.disk) (cached : Cached sb o.disk o.inode)
    (fresh : o.log = []) {pages : List (UInt32 × List UInt8)}
    (whole : ∀ page ∈ pages, page.2.length = n.toNat) :
    (Opened.writeAll sb pages o).2.log.toFinset.card ≤ o.logSpace sb n (pages.map Prod.fst) ∧
      (o.Room sb n (pages.map Prod.fst) → acceptedOffsets n o.inode.size (pages.map Prod.fst) ≠ [] →
        (Opened.writeAll sb pages o).2.log.toFinset.card = o.logSpace sb n (pages.map Prod.fst)) := by
  obtain ⟨offs, stored, writes, -, among, complete⟩ :=
    (Writes.refl image cached fresh).run whole
  rw [List.nil_append] at writes complete
  obtain ⟨final, isFinal⟩ : ∃ final, final = (Opened.writeAll sb pages o).2 := ⟨_, rfl⟩
  obtain ⟨accepted, isAccepted⟩ : ∃ accepted,
      accepted = acceptedOffsets n o.inode.size (pages.map Prod.fst) := ⟨_, rfl⟩
  rw [← isFinal] at writes
  rw [← isAccepted] at among complete
  have tree := writes.image.owned.tree writes.cached.inUse
  rw [← writes.cached.same] at tree
  have inside : o.inode.inum < sb.ninodes := cached.inUse.2.1
  have covers := @coveredBlocks_mono n.toNat _ _ among
  have sub : {slot | Filled o.disk o.inode.addrs final.disk final.inode.addrs slot} ⊆
      missing o.disk o.inode.addrs (coveredBlocks n.toNat accepted) := by
    intro slot isFilled
    obtain ⟨bn, covered, member⟩ := writes.filled slot isFilled
    exact ⟨isFilled.1, bn, covers covered, member⟩
  have count : offs ≠ [] → final.log.toFinset.card = logBlocks sb o.disk
      {slot | Filled o.disk o.inode.addrs final.disk final.inode.addrs slot} stored := by
    intro some
    apply log_card image.layout writes.step tree inside writes.present
    intro x
    rw [writes.blocks, and_iff_right some]
  rw [← isFinal, Opened.logSpace, Opened.Room, ← isAccepted]
  constructor
  · by_cases none : offs = []
    · have empty : final.log = [] := by
        refine List.eq_nil_iff_forall_not_mem.mpr fun x member => ?_
        rcases (writes.blocks x).mp member with ⟨some, -⟩ | ⟨slot, isFilled, -⟩ | ⟨bn, isStored, -⟩
        · exact some none
        · obtain ⟨bn, ⟨off, member, -⟩, -⟩ := writes.filled slot isFilled
          rw [none] at member
          exact List.not_mem_nil member
        · obtain ⟨off, member, -⟩ := writes.covers isStored
          rw [none] at member
          exact List.not_mem_nil member
      rw [empty]
      exact Nat.zero_le _
    · rw [count none]
      exact logBlocks_mono sub (writes.covers.trans covers)
  · intro room some
    rcases writes.stops with all | ⟨full, bn, covered, zero⟩
    · have same := complete all
      have filled := writes.filled_iff all
      rw [same] at filled all
      rw [count (same ▸ some), filled, all]
    · refine absurd room (not_le.mpr ((writes.no_room full covered zero).trans_le ?_))
      refine Set.ncard_le_ncard (fun slot member => ?_) (Set.toFinite _)
      obtain ⟨empty, bn, covered, path⟩ := member
      exact ⟨empty, bn, covers covered, path⟩

/-- **A run of writes fits in a transaction** when it needs at most that many blocks, and, unless the
disk runs out of blocks, only then. -/
theorem Opened.writeAll_fits (image : Image sb o.disk) (cached : Cached sb o.disk o.inode)
    (fresh : o.log = []) {pages : List (UInt32 × List UInt8)}
    (whole : ∀ page ∈ pages, page.2.length = n.toNat) :
    (o.logSpace sb n (pages.map Prod.fst) ≤ MAXOPBLOCKS →
        (Opened.writeAll sb pages o).2.log.toFinset.card ≤ MAXOPBLOCKS) ∧
      (o.Room sb n (pages.map Prod.fst) →
        ((Opened.writeAll sb pages o).2.log.toFinset.card ≤ MAXOPBLOCKS ↔
          o.logSpace sb n (pages.map Prod.fst) ≤ MAXOPBLOCKS)) := by
  obtain ⟨upper, equal⟩ := Opened.writeAll_log image cached fresh whole
  refine ⟨upper.trans, fun room => ?_⟩
  by_cases none : acceptedOffsets n o.inode.size (pages.map Prod.fst) = []
  · have one : o.logSpace sb n (pages.map Prod.fst) = 1 := Opened.logSpace_none none
    rw [one] at upper ⊢
    exact iff_of_true (upper.trans (by decide)) (by decide)
  · rw [equal room none]

end Writes

end Csc3150.FileSystem
