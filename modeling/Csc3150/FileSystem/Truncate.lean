/-
**`itrunc` frees exactly the blocks of its inode.**

`itrunc` walks the three ranges of an inode and frees every block it finds: the direct blocks, the
entries of the indirect block and the block itself, and below the doubly-indirect block each index
block with its entries, in a loop that clears the entry afterwards. `Released sb disk addrs done`
says which slots the loops have freed so far; every stage of `itrunc` adds some slots to `done`
(`Released.entries`, `Released.one`), and a block is never freed twice because no two slots of an
inode share a block (`Tree`).

* `itrunc_spec` — `itrunc` never panics, and frees the blocks of all slots and no other block;
* `itrunc_owned` — block ownership stays exact.
-/

import Csc3150.FileSystem.BlockMap
import Csc3150.Library.Outcome

namespace Csc3150.FileSystem

open ByteBuffer Outcome Ownership

/-! ### The loops over an index block -/

section Buffers

variable {σ : Type} (buf : Buffers σ) (sb : Superblock) {s inner after : σ} {bno i addr : Nat}

theorem freeEntriesWith_finRange (s : σ) (a : Block) :
    freeEntriesWith buf sb s a =
      (List.finRange NINDIRECT).foldlM (fun s j => bfreeEntryWith buf sb s (uintAt a j.val)) s := by
  rw [freeEntriesWith, ← List.map_coe_finRange_eq_range, List.foldlM_map]

theorem freeSingleWith_free (nonzero : bno ≠ 0)
    (entries : freeEntriesWith buf sb s (buf.bread s bno) = .ok inner)
    (free : bfreeWith buf sb inner bno = .ok after) : freeSingleWith buf sb s bno = .ok after := by
  rw [freeSingleWith, if_pos nonzero]
  exact (bind_of_ok entries).trans free

theorem freeIndirectWith_skip (s : σ) (zero : uintAt (buf.bread s bno) i = 0) :
    freeIndirectWith buf sb bno s i = .ok s :=
  if_neg (not_not.mpr zero)

theorem freeIndirectWith_free (value : uintAt (buf.bread s bno) i = addr) (nonzero : addr ≠ 0)
    (entries : freeEntriesWith buf sb s (buf.bread s addr) = .ok inner)
    (free : bfreeWith buf sb inner addr = .ok after) :
    freeIndirectWith buf sb bno s i =
      .ok (buf.modify after bno (setUint (buf.bread after bno) i 0)) := by
  rw [freeIndirectWith, value]
  exact (if_pos nonzero).trans ((bind_of_ok entries).trans (bind_of_ok free))

end Buffers

/-! ### Freed slots -/

/-- The blocks of one inode: marked data blocks, one for each slot. -/
structure Tree (sb : Superblock) (disk : Disk) (addrs : Fin (NDIRECT + 2) → Nat) : Prop where
  lower : ∀ {slot}, pointer disk addrs slot ≠ 0 → sb.dataStart ≤ pointer disk addrs slot
  upper : ∀ {slot}, pointer disk addrs slot ≠ 0 → pointer disk addrs slot < sb.size
  used : ∀ {slot}, pointer disk addrs slot ≠ 0 → marked sb disk (pointer disk addrs slot) = true
  unique : ∀ {slot slot'}, pointer disk addrs slot ≠ 0 →
    pointer disk addrs slot' = pointer disk addrs slot → slot' = slot

theorem Owned.tree {sb : Superblock} {disk : Disk} {inodes : Nat → Dinode} {n : Nat}
    (owned : Owned sb disk inodes) (inUse : InUse sb inodes n) :
    Tree sb disk (inodes n).addrs where
  lower := owned.lower inUse
  upper := owned.upper inUse
  used := owned.used inUse
  unique nonzero shared := (owned.unique inUse inUse nonzero shared).2

/-- The blocks of the slots in `done` have been freed, and no other block. Outside the free bit map
only the doubly-indirect block may have changed. -/
structure Released (sb : Superblock) (disk : Disk) (addrs : Fin (NDIRECT + 2) → Nat)
    (done : Slot → Prop) (after : Disk) : Prop where
  bits : ∀ c, c < sb.size → (marked sb after c = true ↔
    marked sb disk c = true ∧ ∀ slot, done slot → pointer disk addrs slot = c → c = 0)
  frame : ∀ c, sb.Outside c → (c = pointer disk addrs .doubly → c = 0) → after c = disk c

section Released

variable {sb : Superblock} {disk middle : Disk} {addrs : Fin (NDIRECT + 2) → Nat}
  {done more : Slot → Prop}

theorem Released.start : Released sb disk addrs (fun _ => False) disk where
  bits _ _ := ⟨fun set => ⟨set, fun _ never => never.elim⟩, fun both => both.1⟩
  frame _ _ _ := rfl

/-- Slots without a block count as freed. -/
theorem Released.congr (released : Released sb disk addrs done middle)
    (same : ∀ slot, pointer disk addrs slot ≠ 0 → (more slot ↔ done slot)) :
    Released sb disk addrs more middle where
  bits c small := by
    rw [released.bits c small]
    refine and_congr_right fun _ => ⟨fun all slot done' holds => ?_, fun all slot done' holds => ?_⟩
    all_goals
      by_contra nonzero
      have present : pointer disk addrs slot ≠ 0 := fun zero => nonzero (holds ▸ zero)
    · exact nonzero (all slot ((same slot present).mp done') holds)
    · exact nonzero (all slot ((same slot present).mpr done') holds)
  frame := released.frame

section Step

variable (tree : Tree sb disk addrs) (released : Released sb disk addrs done middle)

include tree released

/-- The blocks of slots that are still to be freed are marked. -/
theorem Released.still_used {slot : Slot} (pending : ¬ done slot)
    (nonzero : pointer disk addrs slot ≠ 0) :
    marked sb middle (pointer disk addrs slot) = true := by
  refine (released.bits _ (tree.upper nonzero)).mpr ⟨tree.used nonzero, fun other done' shared => ?_⟩
  exact (pending (tree.unique nonzero shared ▸ done')).elim

theorem Released.block {slot : Slot} (nonzero : pointer disk addrs slot ≠ 0)
    (apart : slot ≠ .doubly) :
    middle (pointer disk addrs slot) = disk (pointer disk addrs slot) :=
  released.frame _ (Or.inr (tree.lower nonzero)) fun shared =>
    (apart (tree.unique nonzero shared.symm).symm).elim

variable (layout : sb.WellFormed)

include layout

/-- A loop of `bfree` over the entries `g i` of `list`. -/
theorem Released.entries {ι : Type*} {list : List ι} (g : ι → Slot)
    (distinct : list.Pairwise fun i j => g i ≠ g j) (pending : ∀ i ∈ list, ¬ done (g i)) :
    ∃ after, list.foldlM (fun disk' i => bfreeEntry sb disk' (pointer disk addrs (g i))) middle =
        .ok after ∧
      Released sb disk addrs (fun slot => done slot ∨ ∃ i ∈ list, g i = slot) after ∧
      ∀ c, sb.Outside c → after c = middle c := by
  obtain ⟨after, run, freed⟩ :=
    foldlM_bfree layout (fun i => pointer disk addrs (g i)) list middle
      (fun i member nonzero =>
        ⟨tree.upper nonzero, released.still_used tree (pending i member) nonzero⟩)
      (distinct.imp fun {i j} apart shared => by
        by_contra nonzero
        exact apart (tree.unique nonzero shared.symm).symm)
  refine ⟨after, run, ⟨fun c small => ?_, fun c outside notDoubly => ?_⟩, freed.frame⟩
  · rw [freed.bits c small, released.bits c small, and_assoc]
    refine and_congr_right fun _ => ⟨?_, fun all => ⟨fun slot done' => all slot (Or.inl done'), ?_⟩⟩
    · rintro ⟨before, notGone⟩ slot (done' | ⟨i, member, rfl⟩) holds
      · exact before slot done' holds
      · by_contra nonzero
        exact notGone ⟨nonzero, i, member, holds⟩
    · rintro ⟨nonzero, i, member, holds⟩
      exact nonzero (all (g i) (Or.inr ⟨i, member, rfl⟩) holds)
  · rw [freed.frame c outside, released.frame c outside notDoubly]

/-- One `bfree`. -/
theorem Released.one {slot : Slot} (pending : ¬ done slot)
    (nonzero : pointer disk addrs slot ≠ 0) :
    ∃ after, bfree sb middle (pointer disk addrs slot) = .ok after ∧
      Released sb disk addrs (fun other => done other ∨ other = slot) after ∧
      ∀ c, sb.Outside c → after c = middle c := by
  obtain ⟨after, run, next, same⟩ := released.entries tree layout (fun _ => slot)
    (List.pairwise_singleton _ ()) fun _ _ => pending
  refine ⟨after, ?_, next.congr fun other _ => or_congr_right ?_, same⟩
  · rw [List.foldlM_cons, bfreeEntry_of_ne_zero sb middle nonzero] at run
    rwa [bind_congr fun _ => List.foldlM_nil, bind_pure] at run
  · constructor
    · exact fun same => ⟨(), List.mem_singleton.mpr rfl, same.symm⟩
    · rintro ⟨_, _, same⟩
      exact same.symm

/-- An index block other than the doubly-indirect one: its entries, then the block. -/
theorem Released.index (holder : Slot) (g : Fin NINDIRECT → Slot)
    (children : ∀ j, (g j).place = .inr (holder, j)) (apart : holder ≠ .doubly)
    (pending : ¬ done holder) (pending' : ∀ j, ¬ done (g j))
    (nonzero : pointer disk addrs holder ≠ 0) :
    ∃ inner after,
      freeEntries sb middle (middle (pointer disk addrs holder)) = .ok inner ∧
      bfree sb inner (pointer disk addrs holder) = .ok after ∧
      Released sb disk addrs (fun slot => done slot ∨ slot = holder ∨ ∃ j, g j = slot) after ∧
      ∀ c, sb.Outside c → after c = middle c := by
  have distinct : (List.finRange NINDIRECT).Pairwise fun i j => g i ≠ g j := by
    refine (List.nodup_finRange NINDIRECT).imp fun {i j} different same => different ?_
    have places := (children i).symm.trans ((congrArg Slot.place same).trans (children j))
    exact (Prod.mk.inj (Sum.inr.inj places)).2
  have values : ∀ j : Fin NINDIRECT,
      uintAt (middle (pointer disk addrs holder)) j = pointer disk addrs (g j) := by
    intro j
    rw [released.block tree nonzero apart, pointer_child (children j), entry, if_neg nonzero]
  obtain ⟨inner, run, next, same⟩ := released.entries tree layout g distinct fun j _ => pending' j
  have waiting : ¬ (done holder ∨ ∃ j ∈ List.finRange NINDIRECT, g j = holder) := by
    rintro (done' | ⟨j, -, same⟩)
    · exact pending done'
    · have isIndex := Slot.not_isData_of_place (children j)
      have here := children j
      rw [same] at here
      cases holder <;> simp only [Slot.place, Sum.inr.injEq, Prod.mk.injEq, reduceCtorEq,
        false_and] at here
  obtain ⟨after, free, last, same'⟩ := next.one tree layout waiting nonzero
  refine ⟨inner, after, ?_, free, last.congr fun slot _ => ?_,
    fun c outside => (same' c outside).trans (same c outside)⟩
  · rw [← run, freeEntries, freeEntriesWith_finRange]
    simp only [values]
    rfl
  · constructor
    · rintro (done' | rfl | ⟨j, same⟩)
      · exact Or.inl (Or.inl done')
      · exact Or.inr rfl
      · exact Or.inl (Or.inr ⟨j, List.mem_finRange j, same⟩)
    · rintro ((done' | ⟨j, -, same⟩) | rfl)
      · exact Or.inl done'
      · exact Or.inr (Or.inr ⟨j, same⟩)
      · exact Or.inr (Or.inl rfl)

end Step

/-! ### The doubly-indirect range -/

/-- The slots below the first `k` entries of the doubly-indirect block. -/
def BelowDoubly (k : Nat) (slot : Slot) : Prop :=
  ∃ i : Fin NINDIRECT, i.val < k ∧ (slot = .doublyIndex i ∨ ∃ j, Slot.doublyEntry i j = slot)

/-- After `k` rounds of the loop over the doubly-indirect block. -/
structure Rounds (sb : Superblock) (disk : Disk) (addrs : Fin (NDIRECT + 2) → Nat)
    (done : Slot → Prop) (k : Nat) (after : Disk) : Prop where
  released : Released sb disk addrs (fun slot => done slot ∨ BelowDoubly k slot) after
  ahead : ∀ j, k ≤ j → uintAt (after (pointer disk addrs .doubly)) j =
    uintAt (disk (pointer disk addrs .doubly)) j

theorem belowDoubly_succ {k : Nat} (inside : k < NINDIRECT) (slot : Slot) :
    BelowDoubly (k + 1) slot ↔ BelowDoubly k slot ∨ slot = .doublyIndex ⟨k, inside⟩ ∨
      ∃ j, Slot.doublyEntry ⟨k, inside⟩ j = slot := by
  constructor
  · rintro ⟨i, less, here⟩
    by_cases last : i = ⟨k, inside⟩
    · subst last
      exact Or.inr here
    · have different : i.val ≠ k := fun same => last (Fin.ext same)
      exact Or.inl ⟨i, by omega, here⟩
  · rintro (⟨i, less, here⟩ | here)
    · exact ⟨i, by omega, here⟩
    · exact ⟨⟨k, inside⟩, Nat.lt_succ_self k, here⟩

section Doubly

variable (tree : Tree sb disk addrs) (layout : sb.WellFormed)
  (nonzero : pointer disk addrs .doubly ≠ 0)

include tree layout nonzero

theorem Rounds.step {k : Nat} (inside : k < NINDIRECT)
    (indexPending : ∀ i, ¬ done (.doublyIndex i)) (entryPending : ∀ i j, ¬ done (.doublyEntry i j))
    (rounds : Rounds sb disk addrs done k middle) :
    ∃ after, freeIndirect sb (pointer disk addrs .doubly) middle k = .ok after ∧
      Rounds sb disk addrs done (k + 1) after := by
  have value : uintAt (middle (pointer disk addrs .doubly)) k =
      pointer disk addrs (.doublyIndex ⟨k, inside⟩) := by
    have here : (Slot.doublyIndex ⟨k, inside⟩).place = .inr (.doubly, ⟨k, inside⟩) := rfl
    rw [rounds.ahead k le_rfl, pointer_child here, entry, if_neg nonzero]
  by_cases zero : pointer disk addrs (.doublyIndex ⟨k, inside⟩) = 0
  · refine ⟨middle, ?_, rounds.released.congr fun slot present => ?_,
      fun j later => rounds.ahead j (by omega)⟩
    · exact freeIndirectWith_skip .disk sb middle (value.trans zero)
    · rw [belowDoubly_succ inside]
      refine or_congr_right ⟨?_, Or.inl⟩
      rintro (before | rfl | ⟨j, rfl⟩)
      · exact before
      · exact (present zero).elim
      · have here : (Slot.doublyEntry ⟨k, inside⟩ j).place =
            .inr (.doublyIndex ⟨k, inside⟩, j) := rfl
        exact (parent_ne_zero here present zero).elim
  · have notBelow : ∀ i j, k ≤ i.val →
        ¬ BelowDoubly k (.doublyIndex i) ∧ ¬ BelowDoubly k (.doublyEntry i j) := by
      intro i j later
      constructor
      · rintro ⟨i', less, same | ⟨j', same⟩⟩
        · cases same
          omega
        · cases same
      · rintro ⟨i', less, same | ⟨j', same⟩⟩
        · cases same
        · cases same
          omega
    obtain ⟨inner, after, entries, free, next, same⟩ := rounds.released.index tree layout
      (.doublyIndex ⟨k, inside⟩) (.doublyEntry ⟨k, inside⟩) (fun _ => rfl) Slot.noConfusion
      (not_or.mpr ⟨indexPending _, (notBelow _ ⟨k, inside⟩ le_rfl).1⟩)
      (fun j => not_or.mpr ⟨entryPending _ _, (notBelow _ j le_rfl).2⟩) zero
    have outside : sb.Outside (pointer disk addrs .doubly) := Or.inr (tree.lower nonzero)
    refine ⟨logWrite after (pointer disk addrs .doubly)
      (setUint (after (pointer disk addrs .doubly)) k 0), ?_,
      ⟨fun c small => ?_, fun c outsideC notDoubly => ?_⟩, fun j later => ?_⟩
    · exact freeIndirectWith_free .disk sb value zero entries free
    · rw [marked_logWrite layout _ _ outside small, next.bits c small]
      refine and_congr_right fun _ => forall_congr' fun slot => ?_
      rw [belowDoubly_succ inside, or_assoc]
    · by_cases isDoubly : c = pointer disk addrs .doubly
      · exact absurd (isDoubly ▸ notDoubly isDoubly) nonzero
      · rw [logWrite_of_ne _ _ isDoubly, next.frame c outsideC notDoubly]
    · rw [logWrite_self, uintAt_setUint_of_ne _ _ (by omega), same _ outside,
        rounds.ahead j (by omega)]

/-- The loop over the doubly-indirect block. -/
theorem Rounds.run (indexPending : ∀ i, ¬ done (.doublyIndex i))
    (entryPending : ∀ i j, ¬ done (.doublyEntry i j))
    (released : Released sb disk addrs done middle)
    (same : middle (pointer disk addrs .doubly) = disk (pointer disk addrs .doubly)) :
    ∀ k, k ≤ NINDIRECT → ∃ after,
      (List.range k).foldlM (freeIndirect sb (pointer disk addrs .doubly)) middle = .ok after ∧
      Rounds sb disk addrs done k after := by
  intro k
  induction k with
  | zero =>
    refine fun _ => ⟨middle, rfl, released.congr fun slot _ => ?_, fun j _ => by rw [same]⟩
    refine or_iff_left ?_
    rintro ⟨i, less, -⟩
    exact absurd less (Nat.not_lt_zero _)
  | succ k ih =>
    intro inside
    obtain ⟨before, run, rounds⟩ := ih (by omega)
    obtain ⟨after, step, rounds'⟩ :=
      rounds.step tree layout nonzero inside indexPending entryPending
    refine ⟨after, ?_, rounds'⟩
    rw [List.range_succ, List.foldlM_append, run]
    simp only [Bind.bind, Except.bind, List.foldlM_cons, List.foldlM_nil, step]
    rfl

end Doubly

end Released

/-! ### The whole of `itrunc` -/

/-- `ip` as `itrunc` leaves it. -/
def Inode.truncated (ip : Inode) : Inode := { ip with addrs := fun _ => 0, size := 0 }

section Whole

variable {sb : Superblock} {disk first second : Disk} {addrs : Fin (NDIRECT + 2) → Nat}
  (layout : sb.WellFormed) (tree : Tree sb disk addrs)

include layout tree

theorem freeSingle_spec
    (released : Released sb disk addrs (fun slot => ∃ i, Slot.direct i = slot) first) :
    ∃ second, freeSingle sb first (pointer disk addrs .indirect) = .ok second ∧
      Released sb disk addrs (fun slot => (∃ i, Slot.direct i = slot) ∨ slot = .indirect ∨
        ∃ j, Slot.indirectEntry j = slot) second ∧
      ∀ c, sb.Outside c → second c = first c := by
  by_cases zero : pointer disk addrs .indirect = 0
  · refine ⟨first, if_neg (not_not.mpr zero), released.congr fun slot present => ?_, fun _ _ => rfl⟩
    refine ⟨?_, Or.inl⟩
    rintro (isDirect | rfl | ⟨j, rfl⟩)
    · exact isDirect
    · exact (present zero).elim
    · have here : (Slot.indirectEntry j).place = .inr (.indirect, j) := rfl
      exact (parent_ne_zero here present zero).elim
  · obtain ⟨inner, second, entries, free, next, same⟩ := released.index tree layout
      .indirect .indirectEntry (fun _ => rfl) Slot.noConfusion
      (by rintro ⟨_, other⟩; cases other) (by rintro _ ⟨_, other⟩; cases other) zero
    refine ⟨second, ?_, next, same⟩
    exact freeSingleWith_free .disk sb zero entries free

theorem freeDouble_spec
    (released : Released sb disk addrs (fun slot => (∃ i, Slot.direct i = slot) ∨
      slot = .indirect ∨ ∃ j, Slot.indirectEntry j = slot) second)
    (same : ∀ c, sb.Outside c → second c = disk c) :
    ∃ third, freeDouble sb second (pointer disk addrs .doubly) = .ok third ∧
      Released sb disk addrs (fun _ => True) third := by
  by_cases zero : pointer disk addrs .doubly = 0
  · refine ⟨second, if_neg (not_not.mpr zero), released.congr fun slot present => ?_⟩
    refine iff_of_true trivial ?_
    cases slot with
    | direct i => exact Or.inl ⟨i, rfl⟩
    | indirect => exact Or.inr (Or.inl rfl)
    | indirectEntry j => exact Or.inr (Or.inr ⟨j, rfl⟩)
    | doubly => exact (present zero).elim
    | doublyIndex i =>
      have here : (Slot.doublyIndex i).place = .inr (.doubly, i) := rfl
      exact (parent_ne_zero here present zero).elim
    | doublyEntry i j =>
      have here : (Slot.doublyEntry i j).place = .inr (.doublyIndex i, j) := rfl
      have up : (Slot.doublyIndex i).place = .inr (.doubly, i) := rfl
      exact (parent_ne_zero up (parent_ne_zero here present) zero).elim
  · obtain ⟨inner, run, rounds⟩ := Rounds.run tree layout zero
      (by rintro i (⟨_, other⟩ | other | ⟨_, other⟩) <;> cases other)
      (by rintro i j (⟨_, other⟩ | other | ⟨_, other⟩) <;> cases other)
      released (same _ (Or.inr (tree.lower zero))) NINDIRECT le_rfl
    have pending : ¬ (((∃ i, Slot.direct i = .doubly) ∨ Slot.doubly = .indirect ∨
        ∃ j, Slot.indirectEntry j = .doubly) ∨ BelowDoubly NINDIRECT .doubly) := by
      rintro ((⟨_, other⟩ | other | ⟨_, other⟩) | ⟨_, _, other | ⟨_, other⟩⟩) <;> cases other
    obtain ⟨third, free, next, -⟩ := rounds.released.one tree layout pending zero
    refine ⟨third, ?_, next.congr fun slot _ => iff_of_true trivial ?_⟩
    · exact (if_pos zero).trans ((bind_of_ok run).trans free)
    · cases slot with
      | direct i => exact Or.inl (Or.inl (Or.inl ⟨i, rfl⟩))
      | indirect => exact Or.inl (Or.inl (Or.inr (Or.inl rfl)))
      | indirectEntry j => exact Or.inl (Or.inl (Or.inr (Or.inr ⟨j, rfl⟩)))
      | doubly => exact Or.inr rfl
      | doublyIndex i => exact Or.inl (Or.inr ⟨i, i.isLt, Or.inl rfl⟩)
      | doublyEntry i j => exact Or.inl (Or.inr ⟨i, i.isLt, Or.inr ⟨j, rfl⟩⟩)

end Whole

/-- `itrunc` frees the blocks of all slots, then writes the inode back. -/
theorem itrunc_spec {sb : Superblock} {disk : Disk} {ip : Inode} (layout : sb.WellFormed)
    (tree : Tree sb disk ip.addrs) :
    ∃ middle, itrunc sb disk ip = .ok (iupdate sb middle ip.truncated, ip.truncated) ∧
      Released sb disk ip.addrs (fun _ => True) middle := by
  have distinct : (List.finRange NDIRECT).Pairwise fun i j => Slot.direct i ≠ .direct j :=
    (List.nodup_finRange NDIRECT).imp fun different same => different (Slot.direct.inj same)
  obtain ⟨first, direct, released, same⟩ :=
    Released.start.entries tree layout _ distinct fun _ _ => not_false
  have released' : Released sb disk ip.addrs (fun slot => ∃ i, Slot.direct i = slot) first :=
    released.congr fun slot _ => ⟨fun ⟨i, isDirect⟩ => Or.inr ⟨i, List.mem_finRange i, isDirect⟩,
      fun either => either.elim False.elim fun ⟨i, _, isDirect⟩ => ⟨i, isDirect⟩⟩
  obtain ⟨second, single, released', same'⟩ := freeSingle_spec layout tree released'
  obtain ⟨third, double, released'⟩ := freeDouble_spec layout tree released'
    fun c outside => (same' c outside).trans (same c outside)
  refine ⟨third, ?_, released'⟩
  calc itrunc sb disk ip
      = (freeSingle sb first _ >>= fun disk => freeDouble sb disk _ >>= fun disk => _) :=
        bind_of_ok direct
    _ = (freeDouble sb second _ >>= fun disk => _) := bind_of_ok single
    _ = _ := bind_of_ok double

end Csc3150.FileSystem
