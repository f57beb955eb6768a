/-
**Well-formed images, and the inode operations on them.**

An `Image` is a disk whose block ownership is exact with respect to its own inodes and whose files
have no holes. `readi`, `writei` and `itrunc` are given their whole meaning on an image here: they
are called with an in-memory copy that agrees with the disk, they leave an image and a copy that
agrees with it, and they touch no other inode.

* `writei_spec` — what is stored, what is returned, and what is left alone (`Written`);
* `readi_spec` — the disk and the inode are unchanged, and the bytes are those of the file;
* `itrunc_image` — the file is empty afterwards and its blocks are free.
-/

import Csc3150.FileSystem.Contents

namespace Csc3150.FileSystem

open ByteBuffer Outcome Ownership

/-! ### Writing one inode back -/

section WriteBack

variable {sb : Superblock} {disk : Disk} {inodes inodes' : Nat → Dinode} {inum : Nat}

/-- Only the inodes below `ninodes` count. -/
theorem InUse.congr {n : Nat} (same : n < sb.ninodes → (inodes' n).type = (inodes n).type) :
    InUse sb inodes' n ↔ InUse sb inodes n := by
  unfold InUse
  by_cases inside : n < sb.ninodes
  · rw [same inside]
  · simp only [inside, false_and, and_false]

/-- Ownership depends on the types and the addresses of the inodes. -/
theorem Owned.congr (owned : Owned sb disk inodes)
    (same : ∀ n, n < sb.ninodes →
      (inodes' n).type = (inodes n).type ∧ (inodes' n).addrs = (inodes n).addrs) :
    Owned sb disk inodes' where
  metadata := owned.metadata
  exact := owned.exact.congr
    (fun ⟨n, _⟩ => reference_congr (InUse.congr fun inside => (same n inside).1) fun inUse => by
      rw [(same n inUse.2.1).2])
    fun _ => Iff.rfl

variable (layout : sb.WellFormed) (owned : Owned sb disk inodes) (inside : inum < sb.ninodes)
  {data : Block}

include layout owned inside

/-- An inode block is not a data block in use. -/
theorem Owned.ne_IBLOCK {n : Nat} {slot : Slot} (inUse : InUse sb inodes n)
    (nonzero : pointer disk (inodes n).addrs slot ≠ 0) :
    pointer disk (inodes n).addrs slot ≠ IBLOCK inum sb := by
  have := layout.inodes_below inum inside
  have := layout.bitmap_below _ (owned.upper inUse nonzero)
  have : sb.bmapstart ≤ BBLOCK (pointer disk (inodes n).addrs slot) sb := Nat.le_add_left _ _
  have := owned.lower inUse nonzero
  omega

theorem Owned.pointer_inodeBlock {n : Nat} (inUse : InUse sb inodes n) (slot : Slot) :
    pointer (logWrite disk (IBLOCK inum sb) data) (inodes n).addrs slot =
      pointer disk (inodes n).addrs slot :=
  pointer_congr (fun _ => rfl) (fun _ _ nonzero =>
    logWrite_of_ne _ _ (owned.ne_IBLOCK layout inside inUse nonzero)) slot

omit owned in
theorem marked_inodeBlock {b : Nat} (small : b < sb.size) :
    marked sb (logWrite disk (IBLOCK inum sb) data) b = marked sb disk b :=
  marked_logWrite layout _ _ (layout.outside_IBLOCK inside) small

/-- Storing an inode block keeps ownership, for the same inodes. -/
theorem Owned.inodeBlock : Owned sb (logWrite disk (IBLOCK inum sb) data) inodes where
  metadata b metadata := by
    by_cases small : b < sb.size
    · rw [marked_inodeBlock layout inside small, owned.metadata b metadata]
    · have below : b < sb.size := lt_of_lt_of_le metadata (Nat.sub_le _ _)
      exact absurd below small
  exact := by
    refine owned.exact.congr ?_ fun b => ?_
    · rintro ⟨n, slot⟩
      exact reference_congr Iff.rfl fun inUse => owned.pointer_inodeBlock layout inside inUse slot
    · refine and_congr_right fun _ => ⟨fun ⟨small, set⟩ => ⟨small, ?_⟩,
        fun ⟨small, set⟩ => ⟨small, ?_⟩⟩
      · rwa [marked_inodeBlock layout inside small] at set
      · rwa [marked_inodeBlock layout inside small]

theorem Owned.fileByte_inodeBlock {n : Nat} (inUse : InUse sb inodes n) (k : Nat) :
    fileByte (logWrite disk (IBLOCK inum sb) data) (inodes n).addrs k =
      fileByte disk (inodes n).addrs k := by
  rw [fileByte, fileByte, owned.pointer_inodeBlock layout inside inUse]
  by_cases zero : pointer disk (inodes n).addrs (slotOf (k / BSIZE)) = 0
  · rw [if_pos zero, if_pos zero]
  · rw [if_neg zero, if_neg zero, logWrite_of_ne]
    exact owned.ne_IBLOCK layout inside inUse zero

end WriteBack

/-! ### Images -/

/-- Every block of a file below its size is mapped. -/
def NoHoles (sb : Superblock) (disk : Disk) : Prop :=
  ∀ n, InUse sb (dinode sb disk) n → ∀ bn, bn < MAXFILE → bn * BSIZE < (dinode sb disk n).size →
    pointer disk (dinode sb disk n).addrs (slotOf bn) ≠ 0

/-- A well-formed file system image: the layout, exact block ownership, and no holes. -/
structure Image (sb : Superblock) (disk : Disk) : Prop where
  layout : sb.WellFormed
  owned : Owned sb disk (dinode sb disk)
  filled : NoHoles sb disk

/-- The bytes of file `n`. -/
def content (sb : Superblock) (disk : Disk) (n : Nat) : List UInt8 :=
  fileBytes disk (dinode sb disk n).addrs 0 (dinode sb disk n).size

/-- An in-memory inode that is in use and agrees with the disk. -/
structure Cached (sb : Superblock) (disk : Disk) (ip : Inode) : Prop where
  inUse : InUse sb (dinode sb disk) ip.inum
  same : ip.toDinode = dinode sb disk ip.inum

theorem Cached.withInode {sb : Superblock} {disk : Disk} {ip : Inode}
    (cached : Cached sb disk ip) : withInode (dinode sb disk) ip = dinode sb disk := by
  rw [FileSystem.withInode, cached.same, Function.update_eq_self]

/-- A step that touches no inode but `inum`. -/
structure Touches (sb : Superblock) (inum : Nat) (disk after : Disk) : Prop where
  inodes : ∀ m, m < sb.ninodes → m ≠ inum → dinode sb after m = dinode sb disk m
  bytes : ∀ m k, InUse sb (dinode sb disk) m → m ≠ inum → k < MAXFILE * BSIZE →
    fileByte after (dinode sb disk m).addrs k = fileByte disk (dinode sb disk m).addrs k

theorem Touches.content {sb : Superblock} {inum : Nat} {disk after : Disk}
    (touches : Touches sb inum disk after) {m : Nat} (inUse : InUse sb (dinode sb disk) m)
    (different : m ≠ inum) (small : (dinode sb disk m).size ≤ MAXFILE * BSIZE) :
    content sb after m = content sb disk m := by
  rw [FileSystem.content, FileSystem.content, touches.inodes m inUse.2.1 different]
  refine List.map_congr_left fun k member => ?_
  have less : k < (dinode sb disk m).size := List.mem_range.mp member
  exact touches.bytes m _ inUse different (by omega)

theorem Touches.trans {sb : Superblock} {inum : Nat} {disk middle after : Disk}
    (first : Touches sb inum disk middle) (second : Touches sb inum middle after) :
    Touches sb inum disk after where
  inodes m inside different :=
    (second.inodes m inside different).trans (first.inodes m inside different)
  bytes m k inUse different small := by
    have same := first.inodes m inUse.2.1 different
    have inUse' : InUse sb (dinode sb middle) m := by
      unfold InUse
      rw [same]
      exact inUse
    have here := second.bytes m k inUse' different small
    rw [same] at here
    exact here.trans (first.bytes m k inUse different small)

/-- Every entry of `addrs[]` is the place of a slot. -/
theorem exists_root (k : Fin (NDIRECT + 2)) : ∃ slot : Slot, slot.place = .inl k := by
  by_cases direct : k.val < NDIRECT
  · exact ⟨.direct ⟨k.val, direct⟩, rfl⟩
  · by_cases single : k.val = NDIRECT
    · exact ⟨.indirect, congrArg _ (Fin.ext single.symm)⟩
    · have double : k.val = NDIRECT + 1 := by omega
      exact ⟨.doubly, congrArg _ (Fin.ext double.symm)⟩

/-- The addresses of an inode in use fit their width. -/
theorem Owned.addrs_lt {sb : Superblock} {disk : Disk} {inodes : Nat → Dinode} {n : Nat}
    (layout : sb.WellFormed) (owned : Owned sb disk inodes) (inUse : InUse sb inodes n)
    (k : Fin (NDIRECT + 2)) : (inodes n).addrs k < 2 ^ 32 := by
  obtain ⟨slot, here⟩ := exists_root k
  have holds : pointer disk (inodes n).addrs slot = (inodes n).addrs k := pointer_root here
  by_cases zero : pointer disk (inodes n).addrs slot = 0
  · rw [← holds, zero]
    exact Nat.two_pow_pos 32
  · have := owned.upper inUse zero
    have := layout.size_le
    omega

/-! ### Replacing one inode -/

/-- The disk `middle` with inode `inum` replaced by `dip`: the inodes on disk are then `inodes'`, up
to sizes and link counts, and nothing else moved. -/
structure Updated (sb : Superblock) (disk middle : Disk) (inodes' : Nat → Dinode) (inum : Nat)
    (dip : Dinode) (after : Disk) : Prop where
  own : dinode sb after inum = dip
  others : ∀ m, m < sb.ninodes → m ≠ inum → dinode sb after m = dinode sb disk m
  owned : Owned sb after (dinode sb after)
  used : ∀ {m}, InUse sb (dinode sb after) m ↔ InUse sb inodes' m
  pointers : ∀ {m}, InUse sb inodes' m → ∀ slot,
    pointer after (dinode sb after m).addrs slot = pointer middle (inodes' m).addrs slot
  bytes : ∀ {m}, InUse sb inodes' m → ∀ k,
    fileByte after (dinode sb after m).addrs k = fileByte middle (inodes' m).addrs k
  marks : ∀ b, b < sb.size → marked sb after b = marked sb middle b

theorem Owned.updated {sb : Superblock} {disk middle : Disk} {inodes' : Nat → Dinode} {inum : Nat}
    {dip : Dinode} (layout : sb.WellFormed) (owned : Owned sb middle inodes')
    (inside : inum < sb.ninodes) (fits : dip.Fits)
    (frame : ∀ c, c < sb.bmapstart → middle c = disk c)
    (others : ∀ m, m ≠ inum → inodes' m = dinode sb disk m)
    (type : (inodes' inum).type = dip.type) (addrs : (inodes' inum).addrs = dip.addrs) :
    Updated sb disk middle inodes' inum dip (writeDinode sb middle inum dip) := by
  have own : dinode sb (writeDinode sb middle inum dip) inum = dip :=
    dinode_writeDinode_self _ _ _ fits
  have others' : ∀ m, m < sb.ninodes → m ≠ inum →
      dinode sb (writeDinode sb middle inum dip) m = dinode sb disk m := by
    intro m insideM different
    rw [dinode_writeDinode_of_ne _ _ _ different, dinode, frame _ (layout.inodes_below m insideM),
      dinode]
  have agree : ∀ m, m < sb.ninodes →
      (dinode sb (writeDinode sb middle inum dip) m).type = (inodes' m).type ∧
      (dinode sb (writeDinode sb middle inum dip) m).addrs = (inodes' m).addrs := by
    intro m insideM
    by_cases isInum : m = inum
    · subst isInum
      rw [own, type, addrs]
      exact ⟨rfl, rfl⟩
    · rw [others' m insideM isInum, others m isInum]
      exact ⟨rfl, rfl⟩
  refine ⟨own, others', (owned.inodeBlock layout inside).congr agree,
    fun {m} => InUse.congr fun insideM => (agree m insideM).1, fun {m} inUse slot => ?_,
    fun {m} inUse k => ?_, fun b small => marked_inodeBlock layout inside small⟩
  · rw [(agree m inUse.2.1).2]
    exact owned.pointer_inodeBlock layout inside inUse slot
  · rw [(agree m inUse.2.1).2]
    exact owned.fileByte_inodeBlock layout inside inUse k

theorem Updated.touches {sb : Superblock} {disk after : Disk} {inodes' : Nat → Dinode} {inum : Nat}
    {dip : Dinode} (updated : Updated sb disk disk inodes' inum dip after)
    (others : ∀ m, m ≠ inum → inodes' m = dinode sb disk m) : Touches sb inum disk after where
  inodes := updated.others
  bytes m k inUse different _ := by
    have inUse' : InUse sb inodes' m := by
      unfold InUse
      rw [others m different]
      exact inUse
    have here := updated.bytes inUse' k
    rwa [updated.others m inUse.2.1 different, others m different] at here

/-- Replacing one inode of an image by a `dip` that owns the same blocks and has no holes. -/
theorem Image.replace {sb : Superblock} {disk : Disk} {inum : Nat} (image : Image sb disk)
    (dip : Dinode) (inside : inum < sb.ninodes) (fits : dip.Fits)
    (owned : Owned sb disk (Function.update (dinode sb disk) inum dip))
    (filled : dip.type ≠ 0 → ∀ bn, bn < MAXFILE → bn * BSIZE < dip.size →
      pointer disk dip.addrs (slotOf bn) ≠ 0) :
    Image sb (writeDinode sb disk inum dip) ∧ Touches sb inum disk (writeDinode sb disk inum dip) ∧
      dinode sb (writeDinode sb disk inum dip) inum = dip := by
  have others : ∀ m, m ≠ inum → Function.update (dinode sb disk) inum dip m = dinode sb disk m :=
    fun m different => Function.update_of_ne different _ _
  have self : Function.update (dinode sb disk) inum dip inum = dip := Function.update_self _ _ _
  have updated := owned.updated image.layout inside fits (fun _ _ => rfl) others
    (congrArg Dinode.type self) (congrArg Dinode.addrs self)
  refine ⟨⟨image.layout, updated.owned, fun m inUse bn small below => ?_⟩,
    updated.touches others, updated.own⟩
  have inUse' := updated.used.mp inUse
  rw [updated.pointers inUse']
  by_cases isInum : m = inum
  · subst isInum
    rw [updated.own] at below
    rw [self]
    refine filled ?_ bn small below
    have used := inUse'.2.2
    rwa [self] at used
  · rw [updated.others m inUse.2.1 isInum] at below
    rw [others m isInum]
    refine image.filled m ?_ bn small below
    unfold InUse at inUse'
    rwa [others m isInum] at inUse'

/-- An inode changes hands without blocks: neither before nor after does it refer to any. -/
theorem Owned.replace_empty {sb : Superblock} {disk : Disk} {inodes : Nat → Dinode} {inum : Nat}
    {dip : Dinode} (owned : Owned sb disk inodes)
    (before : InUse sb inodes inum → (inodes inum).addrs = fun _ => 0)
    (after : dip.type ≠ 0 → dip.addrs = fun _ => 0) :
    Owned sb disk (Function.update inodes inum dip) where
  metadata := owned.metadata
  exact := by
    refine owned.exact.congr (fun ⟨m, slot⟩ => ?_) fun _ => Iff.rfl
    by_cases isInum : m = inum
    · subst isInum
      have empty : reference sb disk inodes (m, slot) = none := by
        rw [reference_eq_none]
        by_cases inUse : InUse sb inodes m
        · rw [before inUse]
          exact Or.inr (pointer_zero _ _)
        · exact Or.inl inUse
      rw [empty, reference_eq_none, Function.update_self]
      by_cases free : dip.type = 0
      · refine Or.inl fun inUse => inUse.2.2 ?_
        rw [Function.update_self]
        exact free
      · rw [after free]
        exact Or.inr (pointer_zero _ _)
    · refine reference_congr ?_ fun _ => ?_
      · unfold InUse
        rw [Function.update_of_ne isInum]
      · rw [Function.update_of_ne isInum]

/-- A change of link count or device numbers, or of type among the types in use. -/
theorem Image.setFields {sb : Superblock} {disk : Disk} {inum : Nat} {dip : Dinode}
    (image : Image sb disk) (inUse : InUse sb (dinode sb disk) inum) (type : dip.type ≠ 0)
    (size : dip.size = (dinode sb disk inum).size)
    (addrs : dip.addrs = (dinode sb disk inum).addrs) :
    Image sb (writeDinode sb disk inum dip) ∧ Touches sb inum disk (writeDinode sb disk inum dip) ∧
      dinode sb (writeDinode sb disk inum dip) inum = dip := by
  have oldFits := dinode_fits sb disk inum
  refine image.replace dip inUse.2.1 ⟨size ▸ oldFits.size_lt, addrs ▸ oldFits.addrs_lt⟩ ?_ ?_
  · refine ⟨image.owned.metadata, image.owned.exact.congr (fun ⟨m, slot⟩ => ?_) fun _ => Iff.rfl⟩
    by_cases isInum : m = inum
    · subst isInum
      refine reference_congr ?_ fun _ => ?_
      · unfold InUse
        rw [Function.update_self]
        exact ⟨fun ⟨a, b, _⟩ => ⟨a, b, inUse.2.2⟩, fun ⟨a, b, _⟩ => ⟨a, b, type⟩⟩
      · rw [Function.update_self, addrs]
    · refine reference_congr ?_ fun _ => ?_
      · unfold InUse
        rw [Function.update_of_ne isInum]
      · rw [Function.update_of_ne isInum]
  · intro _ bn small below
    rw [addrs]
    rw [size] at below
    exact image.filled inum inUse bn small below

/-! ### `writei` -/

/-- The requests that `writei` turns down: `off` past the end, a range that wraps in 32 bits, or one
past the largest file. -/
def Rejects (size : Nat) (off n : UInt32) : Prop :=
  size < off.toNat ∨ 2 ^ 32 ≤ off.toNat + n.toNat ∨ MAXFILE * BSIZE < off.toNat + n.toNat

theorem add_lt_left_iff (off n : UInt32) : off + n < off ↔ 2 ^ 32 ≤ off.toNat + n.toNat := by
  have offLt := off.toNat_lt
  have nLt := n.toNat_lt
  rw [UInt32.lt_iff_toNat_lt, UInt32.toNat_add]
  omega

/-- The check of `writei`, in its two steps. -/
theorem rejects_iff {size : Nat} {off n : UInt32} :
    Rejects size off n ↔ (size < off.toNat ∨ off + n < off) ∨ MAXFILE * BSIZE < (off + n).toNat := by
  have offLt := off.toNat_lt
  have nLt := n.toNat_lt
  have total : MAXFILE * BSIZE < 2 ^ 32 := by decide
  rw [Rejects, add_lt_left_iff, UInt32.toNat_add]
  omega

section Checks

variable {σ : Type} {buf : Buffers σ} {sb : Superblock} {s s₁ : σ} {ip ip' final : Inode} {src : CopyIn}
  {off n : UInt32} {tot : Nat}

theorem writeiWith_rejects (rejects : Rejects ip.size off n) :
    writeiWith buf sb s ip src off n = .ok (s, ip, -1) := by
  rw [writeiWith]
  rcases rejects_iff.mp rejects with past | large
  · exact if_pos past
  · rw [if_pos large, ite_self]

theorem writeiWith_eq (accepts : ¬ Rejects ip.size off n) :
    writeiWith buf sb s ip src off n =
      writeiLoopWith buf sb src n.toNat n.toNat s ip off.toNat 0 >>= fun result =>
        let ip := if result.2.1.size < result.2.2.1 then { result.2.1 with size := result.2.2.1 }
          else result.2.1
        .ok (iupdateWith buf sb result.1 ip, ip, (result.2.2.2 : Int)) := by
  have checks := not_or.mp (mt rejects_iff.mpr accepts)
  exact (if_neg checks.1).trans (if_neg checks.2)

/-- A write that is not turned down ends with its loop and the inode written back. -/
theorem writeiWith_accepts (accepts : ¬ Rejects ip.size off n)
    (run : writeiLoopWith buf sb src n.toNat n.toNat s ip off.toNat 0 =
      .ok (s₁, ip', off.toNat + tot, tot)) (size : ip'.size = ip.size)
    (isFinal : final = { ip' with size := max ip.size (off.toNat + tot) }) :
    writeiWith buf sb s ip src off n = .ok (iupdateWith buf sb s₁ final, final, (tot : Int)) := by
  have grown : (if ip'.size < off.toNat + tot then { ip' with size := off.toNat + tot } else ip') =
      final := by
    rw [isFinal, ← size]
    split_ifs with larger
    · rw [max_eq_right (by omega)]
    · rw [max_eq_left (by omega)]
  rw [writeiWith_eq accepts, bind_of_ok run]
  dsimp only
  rw [grown]

end Checks

/-- What a `writei` that was not turned down has done: `tot` bytes are stored in whole chunks, and
up to `hi` when the copy of the next chunk failed part-way. -/
structure Written (sb : Superblock) (src : CopyIn) (ip : Inode) (off n : Nat) (disk after : Disk)
    (ip' : Inode) (tot hi : Nat) : Prop where
  image : Image sb after
  cached : Cached sb after ip'
  touches : Touches sb ip.inum disk after
  change : ip' = { ip with addrs := ip'.addrs, size := max ip.size (off + tot) }
  bytes : ∀ k, k < MAXFILE * BSIZE → fileByte after ip'.addrs k =
    if off ≤ k ∧ k < hi then src.byte (k - off) else fileByte disk ip.addrs k
  upper : tot ≤ n
  reached : off + tot ≤ hi
  stopped : tot < n → (Full sb after ∧ hi = off + tot) ∨
    ∃ stored, src.fault tot (min (n - tot) (BSIZE - (off + tot) % BSIZE)) = some stored ∧
      hi = off + tot + min stored (min (n - tot) (BSIZE - (off + tot) % BSIZE))
  complete : tot = n → hi = off + tot

/-- The loop of `writei` and the inode written back with its new size. -/
theorem Looped.written {sb : Superblock} {src : CopyIn} {ip ip' ip'' : Inode} {off n tot hi : Nat}
    {disk middle : Disk} (image : Image sb disk) (cached : Cached sb disk ip)
    (start : off ≤ ip.size) (room : off + n ≤ MAXFILE * BSIZE)
    (looped : Looped sb src off n disk (dinode sb disk) ip 0 middle ip' tot hi)
    (final : ip'' = { ip' with size := max ip.size (off + tot) }) :
    Written sb src ip off n disk (iupdate sb middle ip'') ip'' tot hi := by
  have layout := image.layout
  have wrote := looped.wrote
  rw [cached.withInode] at wrote
  have change : ip'' = { ip with addrs := ip'.addrs, size := max ip.size (off + tot) } := by
    rw [final, looped.change]
  have number : ip''.inum = ip.inum := by
    rw [change]
  have addrs : ip''.addrs = ip'.addrs := by
    rw [final]
  have size : ip''.size = max ip.size (off + tot) := by
    rw [final]
  have inUse : InUse sb (withInode (dinode sb disk) ip') ip.inum :=
    (wrote.inUse_iff _).mpr cached.inUse
  have tree : (withInode (dinode sb disk) ip' ip.inum).addrs = ip'.addrs := by
    rw [withInode_addrs looped.change]
  have inside := cached.inUse.2.1
  have fits : ip''.Fits := by
    refine ⟨?_, fun k => ?_⟩
    · have oldFits := (dinode_fits sb disk ip.inum).size_lt
      rw [← cached.same] at oldFits
      have total : MAXFILE * BSIZE < 2 ^ 32 := by decide
      have := looped.upper
      rw [size]
      omega
    · rw [addrs, ← tree]
      exact wrote.owned.addrs_lt layout inUse k
  have typeAddrs : withInode (dinode sb disk) ip' ip.inum = { ip.toDinode with addrs := ip'.addrs } :=
    withInode_addrs looped.change
  have updated : Updated sb disk middle (withInode (dinode sb disk) ip') ip.inum ip''.toDinode
      (iupdate sb middle ip'') := by
    rw [iupdate_eq, number]
    refine wrote.owned.updated layout inside fits wrote.frame wrote.others ?_ ?_
    · rw [typeAddrs, change]
    · rw [typeAddrs, change]
  have own := updated.own
  have others := updated.others
  have used : ∀ {m}, InUse sb (dinode sb (iupdate sb middle ip'')) m ↔ InUse sb (dinode sb disk) m :=
    fun {m} => updated.used.trans (wrote.inUse_iff m)
  have fileBytes : ∀ m, InUse sb (dinode sb disk) m → ∀ k, k < MAXFILE * BSIZE →
      fileByte (iupdate sb middle ip'') (dinode sb (iupdate sb middle ip'') m).addrs k =
        if m = ip.inum ∧ off ≤ k ∧ k < hi then src.byte (k - off)
        else fileByte disk (dinode sb disk m).addrs k := by
    intro m inUseM k small
    rw [updated.bytes ((wrote.inUse_iff m).mpr inUseM), wrote.bytes m k inUseM small]
    simp only [Nat.add_zero]
  refine ⟨⟨layout, updated.owned, ?_⟩, ⟨?_, ?_⟩, ⟨others, ?_⟩, ?_, ?_, looped.upper,
    looped.reached, ?_, looped.complete⟩
  · intro m inUse' bn small below
    have inUseM := used.mp inUse'
    rw [updated.pointers ((wrote.inUse_iff m).mpr inUseM)]
    by_cases old : bn * BSIZE < (dinode sb disk m).size
    · have nonzero := image.filled m inUseM bn small old
      rw [wrote.kept m _ inUseM nonzero]
      exact nonzero
    · have isInum : m = ip.inum := by
        by_contra different
        rw [others m inUseM.2.1 different] at below
        exact old below
      subst isInum
      rw [own, size, cached.same] at below
      have mapped := looped.mapped (bn * BSIZE) (by rw [← cached.same] at old; omega) (by omega)
      rw [Nat.mul_div_cancel _ (by decide : 0 < BSIZE)] at mapped
      rw [tree]
      exact mapped
  · rw [number]
    exact used.mpr cached.inUse
  · rw [number, own]
  · intro m k inUseM different small
    have here := fileBytes m inUseM k small
    rw [others m inUseM.2.1 different, if_neg fun both => different both.1] at here
    exact here
  · rw [change]
  · intro k small
    have here := fileBytes ip.inum cached.inUse k small
    rw [own, ← cached.same] at here
    simpa only [true_and] using here
  · intro less
    refine (looped.stopped less).imp_left fun ⟨full, complete⟩ => ⟨fun b small => ?_, complete⟩
    rw [updated.marks b small]
    exact full b small

/-- A request that is not turned down, and where its loop stops. -/
theorem writei_cut {sb : Superblock} {disk : Disk} {ip : Inode} (image : Image sb disk)
    (cached : Cached sb disk ip) (src : CopyIn) {off n : UInt32} (accepts : ¬ Rejects ip.size off n) :
    ∃ (after : Disk) (ip' : Inode) (tot hi : Nat),
      writei sb disk ip src off n = .ok (after, ip', (tot : Int)) ∧
      Written sb src ip off.toNat n.toNat disk after ip' tot hi ∧
      Cut src off.toNat n.toNat disk ip.addrs 0 tot hi := by
  have checks := mt rejects_iff.mpr accepts
  rw [not_or] at checks
  have room : off.toNat + n.toNat ≤ MAXFILE * BSIZE := by
    unfold Rejects at accepts
    omega
  have start : off.toNat ≤ ip.size := by
    unfold Rejects at accepts
    omega
  have owned : Owned sb disk (withInode (dinode sb disk) ip) := by
    rw [cached.withInode]
    exact image.owned
  have inUse : InUse sb (withInode (dinode sb disk) ip) ip.inum := by
    rw [cached.withInode]
    exact cached.inUse
  obtain ⟨middle, ip', tot, hi, run, looped, cut⟩ := writeiLoop_cut image.layout src room
    n.toNat disk ip 0 (by omega) (by omega) owned inUse
  have size : ip'.size = ip.size := by
    rw [looped.change]
  obtain ⟨ip'', final⟩ : ∃ ip'' : Inode,
      ip'' = { ip' with size := max ip.size (off.toNat + tot) } := ⟨_, rfl⟩
  exact ⟨_, ip'', tot, hi, writeiWith_accepts accepts run size final,
    looped.written image cached start room final, cut⟩

/-- `writei` turns a request down and changes nothing, or stores a prefix of the source. -/
theorem writei_spec {sb : Superblock} {disk : Disk} {ip : Inode} (image : Image sb disk)
    (cached : Cached sb disk ip) (src : CopyIn) (off n : UInt32) :
    (Rejects ip.size off n → writei sb disk ip src off n = .ok (disk, ip, -1)) ∧
    (¬ Rejects ip.size off n → ∃ (after : Disk) (ip' : Inode) (tot hi : Nat),
      writei sb disk ip src off n = .ok (after, ip', (tot : Int)) ∧
      Written sb src ip off.toNat n.toNat disk after ip' tot hi) := by
  constructor
  · exact fun rejects => writeiWith_rejects rejects
  · intro accepts
    obtain ⟨after, ip', tot, hi, run, written, -⟩ := writei_cut image cached src accepts
    exact ⟨after, ip', tot, hi, run, written⟩

/-! ### `itrunc` -/

/-- Block ownership once the blocks of inode `ip` have left its `addrs[]` and the free bit map. -/
theorem Released.owned {sb : Superblock} {disk middle : Disk} {ip : Inode}
    (image : Image sb disk) (cached : Cached sb disk ip)
    (released : Released sb disk ip.addrs (fun _ => True) middle) (ip' : Inode)
    (number : ip'.inum = ip.inum) (type : ip'.type = ip.type) (empty : ip'.addrs = fun _ => 0) :
    Owned sb middle (withInode (dinode sb disk) ip') ∧
    (∀ m, InUse sb (dinode sb disk) m → m ≠ ip.inum → ∀ slot,
      pointer middle (dinode sb disk m).addrs slot = pointer disk (dinode sb disk m).addrs slot) ∧
    ∀ m slot, InUse sb (dinode sb disk) m → m ≠ ip.inum →
      pointer disk (dinode sb disk m).addrs slot ≠ 0 →
      middle (pointer disk (dinode sb disk m).addrs slot) =
        disk (pointer disk (dinode sb disk m).addrs slot) := by
  have owned := image.owned
  have tree : ip.addrs = (dinode sb disk ip.inum).addrs := congrArg Dinode.addrs cached.same
  rw [tree] at released
  have blocks : ∀ m slot, InUse sb (dinode sb disk) m → m ≠ ip.inum →
      pointer disk (dinode sb disk m).addrs slot ≠ 0 →
      middle (pointer disk (dinode sb disk m).addrs slot) =
        disk (pointer disk (dinode sb disk m).addrs slot) := by
    intro m slot inUseM different nonzero
    refine released.frame _ (Or.inr (owned.lower inUseM nonzero)) fun shared => ?_
    exact (different (owned.unique inUseM cached.inUse nonzero shared.symm).1.symm).elim
  have pointers : ∀ m, InUse sb (dinode sb disk) m → m ≠ ip.inum → ∀ slot,
      pointer middle (dinode sb disk m).addrs slot = pointer disk (dinode sb disk m).addrs slot :=
    fun m inUseM different => pointer_congr (fun _ => rfl)
      fun slot _ nonzero => blocks m slot inUseM different nonzero
  have typeSame : ip.type = (dinode sb disk ip.inum).type := congrArg Dinode.type cached.same
  have self : withInode (dinode sb disk) ip' ip.inum = ip'.toDinode := by
    rw [← number, withInode_self]
  have other : ∀ {m}, m ≠ ip.inum → withInode (dinode sb disk) ip' m = dinode sb disk m :=
    fun {m} different => withInode_of_ne _ _ (number ▸ different)
  have used : ∀ m, InUse sb (withInode (dinode sb disk) ip') m ↔ InUse sb (dinode sb disk) m := by
    intro m
    refine InUse.congr fun _ => ?_
    by_cases isInum : m = ip.inum
    · rw [isInum, self, type, typeSame]
    · rw [other isInum]
  refine ⟨⟨fun b metadata => ?_, ?_⟩, pointers, blocks⟩
  · by_cases small : b < sb.size
    · refine (released.bits b small).mpr ⟨owned.metadata b metadata, fun slot _ holds => ?_⟩
      by_contra nonzero
      have present : pointer disk (dinode sb disk ip.inum).addrs slot ≠ 0 :=
        fun zero => nonzero (holds ▸ zero)
      have lower := owned.lower cached.inUse present
      omega
    · exact absurd (lt_of_lt_of_le metadata (Nat.sub_le _ _)) small
  · refine owned.exact.release (fun owner => owner.1 = ip.inum) ?_ ?_ ?_
    · rintro ⟨m, slot⟩ rfl
      refine reference_eq_none.mpr (Or.inr ?_)
      rw [self, empty]
      exact pointer_zero _ _
    · rintro ⟨m, slot⟩ different
      refine reference_congr (used m) fun inUseM => ?_
      rw [other different]
      exact pointers m inUseM different slot
    · intro b
      constructor
      · rintro ⟨lower, upper, set⟩
        obtain ⟨before, gone⟩ := (released.bits b upper).mp set
        refine ⟨⟨lower, upper, before⟩, ?_⟩
        rintro ⟨m, slot⟩ rfl holds
        obtain ⟨-, holds, nonzero⟩ := reference_eq_some.mp holds
        exact nonzero (gone slot trivial holds)
      · rintro ⟨⟨lower, upper, set⟩, spared⟩
        refine ⟨lower, upper, (released.bits b upper).mpr ⟨set, fun slot _ holds => ?_⟩⟩
        by_contra nonzero
        exact spared (ip.inum, slot) rfl (reference_eq_some.mpr ⟨cached.inUse, holds, nonzero⟩)

/-- `itrunc` leaves an empty file, frees its blocks and touches no other inode. -/
theorem itrunc_image {sb : Superblock} {disk : Disk} {ip : Inode} (image : Image sb disk)
    (cached : Cached sb disk ip) :
    ∃ after, itrunc sb disk ip = .ok (after, ip.truncated) ∧ Image sb after ∧
      Cached sb after ip.truncated ∧ Touches sb ip.inum disk after := by
  have layout := image.layout
  have tree : Tree sb disk ip.addrs := by
    rw [cached.same]
    exact image.owned.tree cached.inUse
  obtain ⟨middle, run, released⟩ := itrunc_spec layout tree
  obtain ⟨owned, pointers, blocks⟩ :=
    released.owned image cached ip.truncated rfl rfl rfl
  have fits : ip.truncated.Fits := ⟨Nat.two_pow_pos 32, fun _ => Nat.two_pow_pos 32⟩
  have frame : ∀ c, c < sb.bmapstart → middle c = disk c := by
    intro c below
    refine released.frame c (Or.inl below) fun shared => ?_
    by_contra nonzero
    have present : pointer disk ip.addrs .doubly ≠ 0 := fun zero => nonzero (shared.trans zero)
    have := tree.lower present
    have := layout.bitmap_below _ (tree.upper present)
    have : sb.bmapstart ≤ BBLOCK (pointer disk ip.addrs .doubly) sb := Nat.le_add_left _ _
    omega
  have self : withInode (dinode sb disk) ip.truncated ip.inum = ip.truncated.toDinode :=
    withInode_self _ ip.truncated
  have other : ∀ {m}, m ≠ ip.inum → withInode (dinode sb disk) ip.truncated m = dinode sb disk m :=
    fun {m} different => withInode_of_ne _ _ different
  have updated : Updated sb disk middle (withInode (dinode sb disk) ip.truncated) ip.inum
      ip.truncated.toDinode (iupdate sb middle ip.truncated) :=
    owned.updated layout cached.inUse.2.1 fits frame (fun m => other) (congrArg Dinode.type self)
      (congrArg Dinode.addrs self)
  have typeSame : ip.type = (dinode sb disk ip.inum).type := congrArg Dinode.type cached.same
  have used : ∀ {m}, InUse sb (withInode (dinode sb disk) ip.truncated) m ↔
      InUse sb (dinode sb disk) m := by
    intro m
    refine InUse.congr fun _ => ?_
    by_cases isInum : m = ip.inum
    · rw [isInum, self]
      exact typeSame
    · rw [other isInum]
  refine ⟨_, run, ⟨layout, updated.owned, ?_⟩, ⟨?_, updated.own.symm⟩, updated.others, ?_⟩
  · intro m inUse bn small below
    have inUseM := updated.used.mp inUse
    rw [updated.pointers inUseM]
    by_cases isInum : m = ip.inum
    · subst isInum
      rw [updated.own] at below
      exact absurd below (Nat.not_lt_zero _)
    · rw [updated.others m inUse.2.1 isInum] at below
      rw [other isInum, pointers m (used.mp inUseM) isInum]
      exact image.filled m (used.mp inUseM) bn small below
  · exact updated.used.mpr (used.mpr cached.inUse)
  · intro m k inUseM different _
    have here := updated.bytes (used.mpr inUseM) k
    rw [updated.others m inUseM.2.1 different, other different] at here
    rw [here, fileByte, fileByte, pointers m inUseM different]
    by_cases zero : pointer disk (dinode sb disk m).addrs (slotOf (k / BSIZE)) = 0
    · rw [if_pos zero, if_pos zero]
    · rw [if_neg zero, if_neg zero, blocks m _ inUseM different zero]

/-! ### `readi` -/

/-- The bytes that `readi` may deliver. -/
def readable (size : Nat) (off n : UInt32) : Nat :=
  if size < off.toNat ∨ 2 ^ 32 ≤ off.toNat + n.toNat then 0
  else min n.toNat (size - off.toNat)

theorem fileBytes_drop_take {disk : Disk} {addrs : Fin (NDIRECT + 2) → Nat} {off count size : Nat}
    (inside : off + count ≤ size) :
    ((fileBytes disk addrs 0 size).drop off).take count = fileBytes disk addrs off count := by
  obtain ⟨rest, rfl⟩ := Nat.exists_eq_add_of_le inside
  have length : (fileBytes disk addrs 0 off).length = off := by
    rw [fileBytes, List.length_map, List.length_range]
  have length' : (fileBytes disk addrs off count).length = count := by
    rw [fileBytes, List.length_map, List.length_range]
  rw [Nat.add_assoc, ← fileBytes_append, Nat.zero_add, ← fileBytes_append, List.drop_left' length,
    List.take_left' length']

@[simp] theorem content_length (sb : Superblock) (disk : Disk) (n : Nat) :
    (content sb disk n).length = (dinode sb disk n).size := by
  rw [content, fileBytes, List.length_map, List.length_range]

/-- `readi` changes nothing and delivers the bytes of the file. -/
theorem readi_spec {sb : Superblock} {disk : Disk} {ip : Inode} (image : Image sb disk)
    (cached : Cached sb disk ip) (dst : CopyOut) (off n : UInt32) :
    (readi sb disk ip dst off n = .error .bmapOutOfRange ∧ MAXFILE * BSIZE < ip.size) ∨
    ∃ r bytes, readi sb disk ip dst off n = .ok (disk, ip, r, bytes) ∧
      ((r = readable ip.size off n ∧
        bytes = ((content sb disk ip.inum).drop off.toNat).take (readable ip.size off n)) ∨
      r = -1 ∧ ∃ t m, dst t m = true) := by
  have offLt := off.toNat_lt
  have nLt := n.toNat_lt
  have sizeLt : ip.size < 2 ^ 32 := by
    rw [cached.same]
    exact (dinode_fits sb disk ip.inum).size_lt
  by_cases beyond : ip.size < off.toNat ∨ off + n < off
  · have empty : readable ip.size off n = 0 := by
      rw [add_lt_left_iff] at beyond
      exact if_pos beyond
    refine Or.inr ⟨0, [], if_pos beyond, Or.inl ⟨?_, ?_⟩⟩
    · rw [empty, Nat.cast_zero]
    · rw [empty, List.take_zero]
  · have inRange := beyond
    rw [add_lt_left_iff] at inRange
    have amount : readable ip.size off n = min n.toNat (ip.size - off.toNat) := if_neg inRange
    have clipped : (if ip.size < (off + n).toNat then ip.size - off.toNat else n.toNat) =
        readable ip.size off n := by
      rw [amount, UInt32.toNat_add]
      split_ifs <;> omega
    have owned : Owned sb disk (withInode (dinode sb disk) ip) := by
      rw [cached.withInode]
      exact image.owned
    have inUse : InUse sb (withInode (dinode sb disk) ip) ip.inum := by
      rw [cached.withInode]
      exact cached.inUse
    have mapped : ∀ k, off.toNat ≤ k → k < off.toNat + (readable ip.size off n - 0) →
        k / BSIZE < MAXFILE → pointer disk ip.addrs (slotOf (k / BSIZE)) ≠ 0 := by
      intro k _ upper small
      have below := image.filled ip.inum cached.inUse (k / BSIZE) small
      rw [← cached.same] at below
      refine below ?_
      have := Nat.div_mul_le_self k BSIZE
      omega
    rw [readi_inside beyond clipped]
    rcases readiLoop_spec image.layout owned inUse dst (readable ip.size off n)
        (readable ip.size off n) off.toNat 0 [] (by omega) (by omega) mapped with
      ⟨error, large⟩ | ⟨r, count, loop, outcome⟩
    · exact Or.inl ⟨error, by omega⟩
    · rw [List.nil_append] at loop
      refine Or.inr ⟨r, _, loop, ?_⟩
      rcases outcome with ⟨rfl, all⟩ | ⟨failed, -, fault⟩
      · refine Or.inl ⟨rfl, ?_⟩
        have sameSize : ip.size = (dinode sb disk ip.inum).size := congrArg Dinode.size cached.same
        rw [content, fileBytes_drop_take (by omega), cached.same, all, Nat.sub_zero, ← sameSize]
      · exact Or.inr ⟨failed, fault⟩

end Csc3150.FileSystem
