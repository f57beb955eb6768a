/-
**Exact block ownership, and `bmap`.**

`reference sb disk inodes (inum, slot)` is the block that slot of an allocated inode holds. The file
system's blocks are `Owned` when the metadata blocks are marked and the marked data blocks are
exactly the referenced ones, each by one slot (`Ownership.Exact`).

`bmap` walks from `addrs[]` down to the slot of a logical block and allocates every slot on the way
that is empty. Each round of the walk is one `ensure`; what a round may do is `Grows`: it keeps
ownership exact, keeps every pointer and every data block, and hands the inode blocks that were
free, zeroed. `bmap_spec` is the transitive closure over the two or three rounds.
-/

import Csc3150.FileSystem.BlockTree
import Csc3150.Library.Ownership

namespace Csc3150.FileSystem

open ByteBuffer Outcome Ownership

/-! ### Ownership -/

/-- Inode `inum` is allocated. -/
def InUse (sb : Superblock) (inodes : Nat → Dinode) (inum : Nat) : Prop :=
  0 < inum ∧ inum < sb.ninodes ∧ (inodes inum).type ≠ 0

/-- An inode number and one of its slots. -/
abbrev Owner := Nat × Slot

open Classical in
/-- The block an allocated inode holds in a slot. -/
noncomputable def reference (sb : Superblock) (disk : Disk) (inodes : Nat → Dinode)
    (owner : Owner) : Option Nat :=
  let b := pointer disk (inodes owner.1).addrs owner.2
  if InUse sb inodes owner.1 ∧ b ≠ 0 then some b else none

/-- The data blocks in use. -/
def liveBlocks (sb : Superblock) (disk : Disk) : Set Nat :=
  fun b => sb.dataStart ≤ b ∧ b < sb.size ∧ marked sb disk b = true

/-- The metadata is marked, and the marked data blocks are the referenced ones, each once. -/
structure Owned (sb : Superblock) (disk : Disk) (inodes : Nat → Dinode) : Prop where
  metadata : ∀ b, b < sb.dataStart → marked sb disk b = true
  exact : Exact (reference sb disk inodes) (liveBlocks sb disk)

section Reference

variable {sb : Superblock} {disk : Disk} {inodes : Nat → Dinode} {inum b : Nat} {slot : Slot}

theorem reference_eq_some : reference sb disk inodes (inum, slot) = some b ↔
    InUse sb inodes inum ∧ pointer disk (inodes inum).addrs slot = b ∧ b ≠ 0 := by
  unfold reference
  dsimp only
  split_ifs with held
  · rw [Option.some.injEq]
    constructor
    · rintro rfl
      exact ⟨held.1, rfl, held.2⟩
    · exact fun ⟨_, same, _⟩ => same
  · refine ⟨nofun, fun ⟨inUse, same, nonzero⟩ => held ⟨inUse, ?_⟩⟩
    rwa [same]

theorem reference_eq_none : reference sb disk inodes (inum, slot) = none ↔
    ¬ InUse sb inodes inum ∨ pointer disk (inodes inum).addrs slot = 0 := by
  unfold reference
  dsimp only
  split_ifs with held
  · refine ⟨nofun, fun either => ?_⟩
    rcases either with unused | zero
    · exact (unused held.1).elim
    · exact (held.2 zero).elim
  · refine ⟨fun _ => ?_, fun _ => rfl⟩
    by_cases inUse : InUse sb inodes inum
    · exact Or.inr (not_not.mp fun nonzero => held ⟨inUse, nonzero⟩)
    · exact Or.inl inUse

theorem reference_of_pointer (inUse : InUse sb inodes inum)
    (nonzero : pointer disk (inodes inum).addrs slot ≠ 0) :
    reference sb disk inodes (inum, slot) = some (pointer disk (inodes inum).addrs slot) :=
  reference_eq_some.mpr ⟨inUse, rfl, nonzero⟩

/-- The reference map depends on what is allocated and on the pointers. -/
theorem reference_congr {after : Disk} {inodes' : Nat → Dinode}
    (inUse : InUse sb inodes' inum ↔ InUse sb inodes inum)
    (same : InUse sb inodes inum →
      pointer after (inodes' inum).addrs slot = pointer disk (inodes inum).addrs slot) :
    reference sb after inodes' (inum, slot) = reference sb disk inodes (inum, slot) := by
  unfold reference
  dsimp only
  by_cases held : InUse sb inodes inum
  · rw [same held]
    simp only [held, inUse.mpr held]
  · rw [if_neg fun both => held (inUse.mp both.1), if_neg fun both => held both.1]

namespace Owned

variable (owned : Owned sb disk inodes)

include owned

theorem live (inUse : InUse sb inodes inum) (nonzero : pointer disk (inodes inum).addrs slot ≠ 0) :
    pointer disk (inodes inum).addrs slot ∈ liveBlocks sb disk :=
  owned.exact.live_of_ref (reference_of_pointer inUse nonzero)

theorem lower (inUse : InUse sb inodes inum)
    (nonzero : pointer disk (inodes inum).addrs slot ≠ 0) :
    sb.dataStart ≤ pointer disk (inodes inum).addrs slot :=
  (owned.live inUse nonzero).1

theorem upper (inUse : InUse sb inodes inum)
    (nonzero : pointer disk (inodes inum).addrs slot ≠ 0) :
    pointer disk (inodes inum).addrs slot < sb.size :=
  (owned.live inUse nonzero).2.1

theorem used (inUse : InUse sb inodes inum)
    (nonzero : pointer disk (inodes inum).addrs slot ≠ 0) :
    marked sb disk (pointer disk (inodes inum).addrs slot) = true :=
  (owned.live inUse nonzero).2.2

/-- No block number occurs twice. -/
theorem unique {inum' : Nat} {slot' : Slot} (inUse : InUse sb inodes inum)
    (inUse' : InUse sb inodes inum') (nonzero : pointer disk (inodes inum).addrs slot ≠ 0)
    (same : pointer disk (inodes inum').addrs slot' = pointer disk (inodes inum).addrs slot) :
    inum' = inum ∧ slot' = slot := by
  have first := reference_of_pointer inUse nonzero
  have second := reference_of_pointer inUse' (same ▸ nonzero)
  rw [same] at second
  exact Prod.mk.inj (owned.exact.unique second first)

end Owned

end Reference

/-! ### One round of the walk -/

/-- The inode numbers' inodes with `ip` as the in-memory copy has it. -/
def withInode (inodes : Nat → Dinode) (ip : Inode) : Nat → Dinode :=
  Function.update inodes ip.inum ip.toDinode

@[simp] theorem withInode_self (inodes : Nat → Dinode) (ip : Inode) :
    withInode inodes ip ip.inum = ip.toDinode := Function.update_self _ _ _

theorem withInode_of_ne (inodes : Nat → Dinode) (ip : Inode) {inum : Nat}
    (different : inum ≠ ip.inum) : withInode inodes ip inum = inodes inum :=
  Function.update_of_ne different _ _

/-- What a step on inode `inum` that only allocates may do; `path` bounds the slots it fills. -/
structure Grows (sb : Superblock) (inum : Nat) (path : Slot → Prop) (disk : Disk)
    (inodes : Nat → Dinode) (after : Disk) (inodes' : Nat → Dinode) : Prop where
  owned : Owned sb after inodes'
  kept : ∀ n slot, InUse sb inodes n → pointer disk (inodes n).addrs slot ≠ 0 →
    pointer after (inodes' n).addrs slot = pointer disk (inodes n).addrs slot
  fresh : ∀ n slot, InUse sb inodes n → pointer disk (inodes n).addrs slot = 0 →
    pointer after (inodes' n).addrs slot ≠ 0 →
      n = inum ∧ path slot ∧ marked sb disk (pointer after (inodes' n).addrs slot) = false ∧
      (slot.IsData → after (pointer after (inodes' n).addrs slot) = fun _ => 0)
  data : ∀ n slot, InUse sb inodes n → slot.IsData → pointer disk (inodes n).addrs slot ≠ 0 →
    after (pointer disk (inodes n).addrs slot) = disk (pointer disk (inodes n).addrs slot)
  others : ∀ n, n ≠ inum → inodes' n = inodes n
  same : inodes' inum = { inodes inum with addrs := (inodes' inum).addrs }
  frame : ∀ c, c < sb.bmapstart → after c = disk c
  marks : ∀ c, c < sb.size → marked sb disk c = true → marked sb after c = true

section Grows

variable {sb : Superblock} {inum : Nat} {path : Slot → Prop} {disk middle after : Disk}
  {inodes inodes' inodes'' : Nat → Dinode}

theorem Grows.refl (inum : Nat) (path : Slot → Prop) (owned : Owned sb disk inodes) :
    Grows sb inum path disk inodes disk inodes where
  owned := owned
  kept _ _ _ _ := rfl
  fresh _ _ _ zero nonzero := (nonzero zero).elim
  data _ _ _ _ _ := rfl
  others _ _ := rfl
  same := rfl
  frame _ _ := rfl
  marks _ _ set := set

theorem Grows.mono (grows : Grows sb inum path disk inodes after inodes') {wider : Slot → Prop}
    (wide : ∀ slot, path slot → wider slot) : Grows sb inum wider disk inodes after inodes' :=
  { grows with
    fresh := fun n slot inUse zero nonzero =>
      let ⟨isInum, onPath, rest⟩ := grows.fresh n slot inUse zero nonzero
      ⟨isInum, wide slot onPath, rest⟩ }

theorem Grows.inUse_iff (grows : Grows sb inum path disk inodes after inodes') (n : Nat) :
    InUse sb inodes' n ↔ InUse sb inodes n := by
  by_cases same : n = inum
  · subst same
    unfold InUse
    rw [grows.same]
  · unfold InUse
    rw [grows.others n same]

theorem Grows.trans (first : Grows sb inum path disk inodes middle inodes')
    (second : Grows sb inum path middle inodes' after inodes'') :
    Grows sb inum path disk inodes after inodes'' where
  owned := second.owned
  kept n slot inUse nonzero := by
    have here := first.kept n slot inUse nonzero
    rw [second.kept n slot ((first.inUse_iff n).mpr inUse) (here ▸ nonzero), here]
  fresh n slot inUse zero nonzero := by
    have inUse' := (first.inUse_iff n).mpr inUse
    by_cases zero' : pointer middle (inodes' n).addrs slot = 0
    · obtain ⟨isInum, onPath, clear, zeroed⟩ := second.fresh n slot inUse' zero' nonzero
      refine ⟨isInum, onPath, ?_, zeroed⟩
      by_contra set
      have small := second.owned.upper ((second.inUse_iff n).mpr inUse') nonzero
      rw [first.marks _ small (Bool.eq_true_of_not_eq_false set)] at clear
      cases clear
    · obtain ⟨isInum, onPath, clear, zeroed⟩ := first.fresh n slot inUse zero zero'
      rw [second.kept n slot inUse' zero']
      exact ⟨isInum, onPath, clear,
        fun data => (second.data n slot inUse' data zero').trans (zeroed data)⟩
  data n slot inUse data nonzero := by
    have here := first.kept n slot inUse nonzero
    have next := second.data n slot ((first.inUse_iff n).mpr inUse) data (here ▸ nonzero)
    rw [here] at next
    rw [next, first.data n slot inUse data nonzero]
  others n different := (second.others n different).trans (first.others n different)
  same := by
    rw [second.same, first.same]
  frame c below := (second.frame c below).trans (first.frame c below)
  marks c small set := second.marks c small (first.marks c small set)

/-- A fresh block stored in one empty slot of inode `inum`. -/
theorem Grows.of_store {target : Slot} {b : Nat} (layout : sb.WellFormed)
    (owned : Owned sb disk inodes) (allocated : Allocated sb disk middle b)
    (inUse : InUse sb inodes inum) (empty : pointer disk (inodes inum).addrs target = 0)
    (others : ∀ n, n ≠ inum → inodes' n = inodes n)
    (same : inodes' inum = { inodes inum with addrs := (inodes' inum).addrs })
    (stored : ∀ slot, pointer after (inodes' inum).addrs slot =
      if slot = target then b else pointer disk (inodes inum).addrs slot)
    (zeroed : after b = fun _ => 0)
    (blocks : ∀ c, sb.Outside c → c ≠ b → (∀ slot, ¬ slot.IsData →
      pointer disk (inodes inum).addrs slot ≠ 0 → c ≠ pointer disk (inodes inum).addrs slot) →
      after c = disk c)
    (marks : ∀ c, c < sb.size → marked sb after c = marked sb middle c) :
    Grows sb inum (· = target) disk inodes after inodes' := by
  have positive : b ≠ 0 := by
    rintro rfl
    have := layout.bitmap_below 0 allocated.upper
    have := allocated.lower
    omega
  have notFresh : ∀ n slot, InUse sb inodes n → pointer disk (inodes n).addrs slot ≠ 0 →
      pointer disk (inodes n).addrs slot ≠ b := by
    intro n slot inUseN nonzero isFresh
    have used := owned.used inUseN nonzero
    rw [isFresh, allocated.free] at used
    cases used
  have keepsBlock : ∀ n slot, InUse sb inodes n → (n ≠ inum ∨ slot.IsData) →
      pointer disk (inodes n).addrs slot ≠ 0 →
      after (pointer disk (inodes n).addrs slot) = disk (pointer disk (inodes n).addrs slot) := by
    intro n slot inUseN apart nonzero
    refine blocks _ (Or.inr (owned.lower inUseN nonzero)) (notFresh n slot inUseN nonzero) ?_
    intro other index nonzeroOther shared
    obtain ⟨rfl, rfl⟩ := owned.unique inUse inUseN nonzeroOther shared
    rcases apart with different | data
    · exact different rfl
    · exact index data
  have samePointer : ∀ n, n ≠ inum → InUse sb inodes n → ∀ slot,
      pointer after (inodes' n).addrs slot = pointer disk (inodes n).addrs slot := by
    intro n different inUseN slot
    rw [others n different]
    exact pointer_congr (fun _ => rfl)
      (fun slot _ nonzero => keepsBlock n slot inUseN (Or.inl different) nonzero) slot
  have stillInUse : ∀ n, InUse sb inodes' n ↔ InUse sb inodes n := by
    intro n
    unfold InUse
    by_cases isInum : n = inum
    · rw [isInum, same]
    · rw [others n isInum]
  have exact : Exact (reference sb after inodes') (liveBlocks sb after) := by
    refine owned.exact.attach (inum, target) b ?_ ?_ ?_ ?_ ?_
    · intro live
      have used : marked sb disk b = true := live.2.2
      rw [allocated.free] at used
      cases used
    · exact reference_eq_none.mpr (Or.inr empty)
    · refine reference_eq_some.mpr ⟨(stillInUse inum).mpr inUse, ?_, positive⟩
      rw [stored, if_pos rfl]
    · rintro ⟨n, slot⟩ different
      refine reference_congr (stillInUse n) fun inUseN => ?_
      by_cases isInum : n = inum
      · subst isInum
        rw [stored, if_neg fun isTarget => different (by rw [isTarget])]
      · exact samePointer n isInum inUseN slot
    · intro c
      constructor
      · rintro ⟨lower, upper, used⟩
        rw [marks c upper, allocated.bits c upper, Bool.or_eq_true, decide_eq_true_eq] at used
        exact used.imp_right fun used => ⟨lower, upper, used⟩
      · rintro (rfl | ⟨lower, upper, used⟩)
        · refine ⟨allocated.lower, allocated.upper, ?_⟩
          rw [marks c allocated.upper, allocated.bits c allocated.upper, decide_eq_true rfl,
            Bool.true_or]
        · refine ⟨lower, upper, ?_⟩
          rw [marks c upper, allocated.bits c upper, used, Bool.or_true]
  have below : sb.bmapstart < sb.dataStart :=
    lt_of_le_of_lt (Nat.le_add_left _ _) (layout.bitmap_below b allocated.upper)
  refine ⟨⟨fun c metadata => ?_, exact⟩, ?_, ?_, ?_, others, same, ?_, ?_⟩
  · have small : c < sb.size := lt_trans metadata (lt_of_le_of_lt allocated.lower allocated.upper)
    rw [marks c small, allocated.bits c small, owned.metadata c metadata, Bool.or_true]
  · intro n slot inUseN nonzero
    by_cases isInum : n = inum
    · subst isInum
      rw [stored, if_neg]
      rintro rfl
      exact nonzero empty
    · exact samePointer n isInum inUseN slot
  · intro n slot inUseN zero nonzero
    by_cases isInum : n = inum
    · subst isInum
      rw [stored] at nonzero ⊢
      by_cases isTarget : slot = target
      · rw [if_pos isTarget]
        exact ⟨rfl, isTarget, allocated.free, fun _ => zeroed⟩
      · rw [if_neg isTarget] at nonzero
        exact (nonzero zero).elim
    · rw [samePointer n isInum inUseN slot] at nonzero
      exact (nonzero zero).elim
  · exact fun n slot inUseN data nonzero => keepsBlock n slot inUseN (Or.inr data) nonzero
  · intro c lower
    refine blocks c (Or.inl lower) ?_ fun slot _ nonzero shared => ?_
    · rintro rfl
      have := allocated.lower
      omega
    · have := owned.lower inUse nonzero
      omega
  · intro c small set
    rw [marks c small, allocated.bits c small, set, Bool.or_true]

end Grows

/-- A changed in-memory copy of inode `ip`: another `addrs[]` and nothing else. -/
theorem withInode_addrs {inodes : Nat → Dinode} {ip ip' : Inode}
    (change : ip' = { ip with addrs := ip'.addrs }) :
    withInode inodes ip' ip.inum = { ip.toDinode with addrs := ip'.addrs } := by
  have number : ip'.inum = ip.inum := by
    rw [change]
  rw [← number, withInode_self]
  exact congrArg Inode.toDinode change

theorem withInode_others {inodes : Nat → Dinode} {ip ip' : Inode}
    (change : ip' = { ip with addrs := ip'.addrs }) {n : Nat} (different : n ≠ ip.inum) :
    withInode inodes ip' n = withInode inodes ip n := by
  have number : ip'.inum = ip.inum := by
    rw [change]
  rw [withInode_of_ne _ _ (number ▸ different), withInode_of_ne _ _ different]

/-- The outcome of one round at slot `target`: the block held there, which was there or is new, or
0 with nothing changed, on a full disk. -/
structure Round (sb : Superblock) (inodes : Nat → Dinode) (disk : Disk) (ip : Inode)
    (target : Slot) (after : Disk) (ip' : Inode) (addr : Nat) : Prop where
  grows : Grows sb ip.inum (· = target) disk (withInode inodes ip) after (withInode inodes ip')
  held : pointer after ip'.addrs target = addr
  full : addr = 0 → after = disk ∧ ip' = ip ∧ ∀ b, b < sb.size → marked sb disk b = true
  present : pointer disk ip.addrs target ≠ 0 → after = disk ∧ ip' = ip
  change : ip' = { ip with addrs := ip'.addrs }

section Round

variable {sb : Superblock} {inodes : Nat → Dinode} {disk middle : Disk} {ip : Inode}
  {target : Slot} {b : Nat}

theorem Allocated.ne_zero (layout : sb.WellFormed) (allocated : Allocated sb disk middle b) :
    b ≠ 0 := by
  have := layout.bitmap_below b allocated.upper
  have := allocated.lower
  omega

/-- A block that was handed out is none of the blocks in use. -/
theorem Owned.ne_fresh {inodes : Nat → Dinode} {n : Nat} {slot : Slot}
    (owned : Owned sb disk inodes) (inUse : InUse sb inodes n)
    (allocated : Allocated sb disk middle b)
    (nonzero : pointer disk (inodes n).addrs slot ≠ 0) :
    pointer disk (inodes n).addrs slot ≠ b := by
  intro isFresh
  have used := owned.used inUse nonzero
  rw [isFresh, allocated.free] at used
  cases used

variable (layout : sb.WellFormed) (owned : Owned sb disk (withInode inodes ip))
  (inUse : InUse sb (withInode inodes ip) ip.inum)

include layout owned inUse

/-- `ip->addrs[k]` is the place of `target`. -/
theorem inodeAddr_round {k : Fin (NDIRECT + 2)} (here : target.place = .inl k) :
    ∃ after ip' addr, inodeAddrWith (Buffers.disk.balloc sb) disk ip k = .ok (after, ip', addr) ∧
      Round sb inodes disk ip target after ip' addr := by
  have holds : pointer disk ip.addrs target = ip.addrs k := pointer_root here
  by_cases present : ip.addrs k = 0
  · rcases balloc_cases layout owned.metadata with ⟨run, full⟩ | ⟨middle, b, run, allocated⟩
    · exact ⟨disk, ip, 0, inodeAddrWith_full present (disk_balloc run), .refl _ _ owned,
        holds.trans present, fun _ => ⟨rfl, rfl, full⟩, fun _ => ⟨rfl, rfl⟩, rfl⟩
    · have positive : b ≠ 0 := allocated.ne_zero layout
      obtain ⟨ip', named⟩ : ∃ ip', ip' = { ip with addrs := Function.update ip.addrs k b } :=
        ⟨_, rfl⟩
      have addrs : ip'.addrs = Function.update ip.addrs k b := by
        rw [named]
      have change : ip' = { ip with addrs := ip'.addrs } := by
        rw [addrs, named]
      have index : ∀ slot, ¬ slot.IsData → pointer disk ip.addrs slot ≠ 0 →
          middle (pointer disk ip.addrs slot) = disk (pointer disk ip.addrs slot) := by
        intro slot _ nonzero
        rw [← withInode_self inodes ip] at nonzero ⊢
        exact allocated.frame _ (Or.inr (owned.lower inUse nonzero))
          (owned.ne_fresh inUse allocated nonzero)
      refine ⟨middle, ip', b, ?_, ?_, ?_, fun zero => (positive zero).elim,
        fun nonzero => (nonzero (holds.trans present)).elim, change⟩
      · rw [named]
        exact inodeAddrWith_fresh present (disk_balloc run) positive
      · refine Grows.of_store layout owned allocated inUse ?_ (fun n => withInode_others change)
          ?_ ?_ allocated.zeroed ?_ fun _ _ => rfl
        · rw [withInode_self]
          exact holds.trans present
        · rw [withInode_addrs change, withInode_self]
        · intro slot
          rw [withInode_addrs change, withInode_self]
          show pointer middle ip'.addrs slot = _
          rw [addrs]
          exact pointer_store_root here present positive allocated.zeroed index slot
        · exact fun c outside different _ => allocated.frame c outside different
      · rw [pointer_root here, addrs, Function.update_self]
  · exact ⟨disk, ip, ip.addrs k, inodeAddrWith_present _ _ present, .refl _ _ owned, holds,
      fun zero => (present zero).elim, fun _ => ⟨rfl, rfl⟩, rfl⟩

/-- Entry `i` of the index block in slot `holder` is the place of `target`. -/
theorem blockAddr_round {holder : Slot} {i : Fin NINDIRECT}
    (here : target.place = .inr (holder, i)) (present : pointer disk ip.addrs holder ≠ 0) :
    ∃ after addr, blockAddrWith .disk (Buffers.disk.balloc sb) disk (pointer disk ip.addrs holder) i =
        .ok (after, addr) ∧
      Round sb inodes disk ip target after ip addr := by
  have holds : pointer disk ip.addrs target = uintAt (disk (pointer disk ip.addrs holder)) i := by
    rw [pointer_child here, entry, if_neg present]
  have self : (withInode inodes ip ip.inum).addrs = ip.addrs := by
    rw [withInode_self]
  by_cases empty : uintAt (disk (pointer disk ip.addrs holder)) i = 0
  · rcases balloc_cases layout owned.metadata with ⟨run, full⟩ | ⟨middle, b, run, allocated⟩
    · exact ⟨disk, 0, blockAddrWith_full empty (disk_balloc run), .refl _ _ owned,
        holds.trans empty, fun _ => ⟨rfl, rfl, full⟩, fun _ => ⟨rfl, rfl⟩, rfl⟩
    · have positive : b ≠ 0 := allocated.ne_zero layout
      have fits : b < 2 ^ 32 := by
        have := layout.size_le
        have := allocated.upper
        omega
      have lower : ∀ slot, pointer disk ip.addrs slot ≠ 0 →
          sb.dataStart ≤ pointer disk ip.addrs slot := by
        intro slot nonzero
        rw [← self] at nonzero ⊢
        exact owned.lower inUse nonzero
      have notFresh : ∀ slot, pointer disk ip.addrs slot ≠ 0 → pointer disk ip.addrs slot ≠ b := by
        intro slot nonzero
        rw [← self] at nonzero ⊢
        exact owned.ne_fresh inUse allocated nonzero
      have keeps : ∀ slot, pointer disk ip.addrs slot ≠ 0 →
          middle (pointer disk ip.addrs slot) = disk (pointer disk ip.addrs slot) :=
        fun slot nonzero => allocated.frame _ (Or.inr (lower slot nonzero)) (notFresh slot nonzero)
      obtain ⟨after, named⟩ : ∃ after, after = logWrite middle (pointer disk ip.addrs holder)
          (setUint (middle (pointer disk ip.addrs holder)) i b) := ⟨_, rfl⟩
      have zeroed : after b = fun _ => 0 := by
        rw [named, logWrite_of_ne _ _ (notFresh holder present).symm, allocated.zeroed]
      have stored : ∀ slot, pointer after ip.addrs slot =
          if slot = target then b else pointer disk ip.addrs slot := by
        refine pointer_store_child here present (holds.trans empty) positive fits zeroed ?_ ?_
        · rw [named, logWrite_self, keeps holder present]
        · intro slot _ different nonzero
          have apart : pointer disk ip.addrs slot ≠ pointer disk ip.addrs holder := by
            intro shared
            rw [← self] at nonzero shared present
            exact different (owned.unique inUse inUse present shared).2
          rw [named, logWrite_of_ne _ _ apart, keeps slot nonzero]
      refine ⟨after, b, ?_, ?_, ?_, fun zero => (positive zero).elim,
        fun nonzero => (nonzero (holds.trans empty)).elim, rfl⟩
      · rw [named]
        exact blockAddrWith_fresh empty (disk_balloc run) positive
      · refine Grows.of_store layout owned allocated inUse ?_ (fun _ _ => rfl) rfl ?_ zeroed ?_ ?_
        · rw [self]
          exact holds.trans empty
        · rw [self]
          exact stored
        · intro c outside different apart
          rw [self] at apart
          rw [named, logWrite_of_ne _ _ (apart holder (Slot.not_isData_of_place here) present),
            allocated.frame c outside different]
        · intro c small
          rw [named, marked_logWrite layout _ _ (Or.inr (lower holder present)) small]
      · rw [stored, if_pos rfl]
  · exact ⟨disk, _, blockAddrWith_present _ empty, .refl _ _ owned, holds,
      fun zero => (empty zero).elim, fun _ => ⟨rfl, rfl⟩, rfl⟩

end Round

/-! ### The walk -/

/-- The outcome of a walk down to slot `target`: the block held there, or 0 on a disk that is now
full. The walk fills index slots and `target`, no other data slot. -/
structure Walk (sb : Superblock) (inodes : Nat → Dinode) (disk : Disk) (ip : Inode)
    (target : Slot) (after : Disk) (ip' : Inode) (addr : Nat) : Prop where
  grows : Grows sb ip.inum (fun slot => slot.IsData → slot = target)
    disk (withInode inodes ip) after (withInode inodes ip')
  held : pointer after ip'.addrs target = addr
  full : addr = 0 → ∀ b, b < sb.size → marked sb after b = true
  present : pointer disk ip.addrs target ≠ 0 → after = disk ∧ ip' = ip
  change : ip' = { ip with addrs := ip'.addrs }

section Walk

variable {sb : Superblock} {inodes : Nat → Dinode} {disk middle after : Disk} {ip ip' : Inode}
  {target holder : Slot} {addr up : Nat} {i : Fin NINDIRECT}

theorem Round.walk (round : Round sb inodes disk ip target after ip' addr) :
    Walk sb inodes disk ip target after ip' addr where
  grows := round.grows.mono fun _ same _ => same
  held := round.held
  full zero := by
    obtain ⟨rfl, rfl, full⟩ := round.full zero
    exact full
  present := round.present
  change := round.change

/-- A walk that stops at an index block on a full disk finds nothing below it. -/
theorem Walk.stop (walk : Walk sb inodes disk ip holder middle ip' 0)
    (here : target.place = .inr (holder, i)) : Walk sb inodes disk ip target middle ip' 0 where
  grows := walk.grows.mono fun slot isHolder isData =>
    (Slot.not_isData_of_place here (isHolder isData ▸ isData)).elim
  held := by
    by_contra present
    exact parent_ne_zero here present walk.held
  full := walk.full
  present nonzero := walk.present (parent_ne_zero here nonzero)
  change := walk.change

theorem Walk.number (walk : Walk sb inodes disk ip target after ip' addr) :
    ip'.inum = ip.inum := by
  rw [walk.change]

/-- A walk to an index block goes on to one of its entries. -/
theorem Walk.next (layout : sb.WellFormed) (inUse : InUse sb (withInode inodes ip) ip.inum)
    (walk : Walk sb inodes disk ip holder middle ip' up) (nonzero : up ≠ 0)
    (here : target.place = .inr (holder, i)) :
    ∃ after addr, blockAddrWith .disk (Buffers.disk.balloc sb) middle up i = .ok (after, addr) ∧
      Walk sb inodes disk ip target after ip' addr := by
  have inUse' : InUse sb (withInode inodes ip') ip'.inum := by
    rw [walk.number]
    exact (walk.grows.inUse_iff _).mpr inUse
  have held := walk.held
  subst held
  obtain ⟨after, addr, run, round⟩ :=
    blockAddr_round layout walk.grows.owned inUse' here nonzero
  have onward : Grows sb ip'.inum (fun slot => slot.IsData → slot = target)
      middle (withInode inodes ip') after (withInode inodes ip') :=
    round.grows.mono fun _ same _ => same
  rw [walk.number] at onward
  have before : Grows sb ip.inum (fun slot => slot.IsData → slot = target)
      disk (withInode inodes ip) middle (withInode inodes ip') := walk.grows.mono
    fun slot isHolder isData => (Slot.not_isData_of_place here (isHolder isData ▸ isData)).elim
  refine ⟨after, addr, run, before.trans onward, round.held, round.walk.full, ?_, walk.change⟩
  intro present
  obtain ⟨rfl, rfl⟩ := walk.present (parent_ne_zero here present)
  exact round.present present

/-- `bmap` finds or allocates the block of a logical block, or the disk is full. -/
theorem bmap_spec (layout : sb.WellFormed) (owned : Owned sb disk (withInode inodes ip))
    (inUse : InUse sb (withInode inodes ip) ip.inum) {bn : Nat} (small : bn < MAXFILE) :
    ∃ after ip' addr, bmap sb disk ip bn = .ok (after, ip', addr) ∧
      Walk sb inodes disk ip (slotOf bn) after ip' addr := by
  have start (target : Slot) {k : Fin (NDIRECT + 2)} (here : target.place = .inl k) :=
    inodeAddr_round layout owned inUse here
  rcases block_cases small with direct | ⟨j, single, rfl⟩ | ⟨j, double, rfl⟩
  · obtain ⟨after, ip', addr, run, round⟩ := start (.direct ⟨bn, direct⟩) rfl
    refine ⟨after, ip', addr, ?_, ?_⟩
    · exact (bmapWith_direct direct).trans run
    · rw [slotOf_direct direct]
      exact round.walk
  · obtain ⟨middle, ip', up, root, round⟩ := start .indirect rfl
    rw [slotOf_single single]
    have here : (Slot.indirectEntry ⟨j, single⟩).place = .inr (.indirect, ⟨j, single⟩) := rfl
    by_cases zero : up = 0
    · subst zero
      exact ⟨middle, ip', 0, bmapWith_single single root, round.walk.stop here⟩
    · obtain ⟨after, addr, next, walk⟩ := round.walk.next layout inUse zero here
      exact ⟨after, ip', addr,
        (bmapWith_single single root).trans ((if_neg zero).trans (bind_of_ok next)), walk⟩
  · have position := doubly_index_lt double
    have offset : j % NINDIRECT < NINDIRECT := Nat.mod_lt _ NINDIRECT_pos
    obtain ⟨first, ip', top, root, round⟩ := start .doubly rfl
    rw [slotOf_double double]
    have hereIndex : (Slot.doublyIndex ⟨j / NINDIRECT, position⟩).place =
        .inr (.doubly, ⟨j / NINDIRECT, position⟩) := rfl
    have hereEntry : (Slot.doublyEntry ⟨j / NINDIRECT, position⟩ ⟨j % NINDIRECT, offset⟩).place =
        .inr (.doublyIndex ⟨j / NINDIRECT, position⟩, ⟨j % NINDIRECT, offset⟩) := rfl
    by_cases zero : top = 0
    · subst zero
      exact ⟨first, ip', 0, bmapWith_double double root, (round.walk.stop hereIndex).stop hereEntry⟩
    · obtain ⟨second, up, next, walk⟩ := round.walk.next layout inUse zero hereIndex
      have index := (bmapWith_double double root).trans ((if_neg zero).trans (bind_of_ok next))
      by_cases zero' : up = 0
      · subst zero'
        exact ⟨second, ip', 0, index, walk.stop hereEntry⟩
      · obtain ⟨after, addr, last, walk'⟩ := walk.next layout inUse zero' hereEntry
        exact ⟨after, ip', addr, index.trans ((if_neg zero').trans (bind_of_ok last)), walk'⟩

end Walk

end Csc3150.FileSystem
