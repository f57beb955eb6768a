/-
**The block tree of an inode.**

The block pointers of an inode form a tree of three levels: a `Slot` is a place that may hold a
block number, either an entry of `ip->addrs[]` or an entry of an index block (`Slot.place`).
`pointer disk addrs slot` is the number held there, zero when the slot or a block above it is
absent. `slotOf bn` is the slot of logical block `bn`.

* `pointer_congr` — the tree depends on `addrs` and on the index blocks alone;
* `pointer_store` — storing a fresh zeroed block in an empty slot changes that slot and no other;
* `slotOf_injective` — different logical blocks below `MAXFILE` have different slots.
-/

import Csc3150.FileSystem.Inode
import Mathlib.Tactic.FinCases

namespace Csc3150.FileSystem

open ByteBuffer

/-- A place that may hold a block number. -/
inductive Slot where
  /-- `addrs[i]` -/
  | direct (i : Fin NDIRECT)
  /-- `addrs[NDIRECT]`, the indirect block -/
  | indirect
  /-- entry `j` of the indirect block -/
  | indirectEntry (j : Fin NINDIRECT)
  /-- `addrs[NDIRECT + 1]`, the doubly-indirect block -/
  | doubly
  /-- entry `i` of the doubly-indirect block -/
  | doublyIndex (i : Fin NINDIRECT)
  /-- entry `j` of the indirect block at entry `i` of the doubly-indirect block -/
  | doublyEntry (i j : Fin NINDIRECT)
  deriving DecidableEq

namespace Slot

/-- Does the slot name a block of file data (rather than an index block)? -/
def IsData : Slot → Prop
  | direct _ | indirectEntry _ | doublyEntry _ _ => True
  | indirect | doubly | doublyIndex _ => False

/-- Where a slot is stored: in `addrs[]`, or in the index block that another slot names. -/
def place : Slot → Fin (NDIRECT + 2) ⊕ (Slot × Fin NINDIRECT)
  | direct i => .inl (i.castLE direct_le)
  | indirect => .inl ⟨NDIRECT, indirect_lt⟩
  | doubly => .inl ⟨NDIRECT + 1, doubly_lt⟩
  | indirectEntry j => .inr (indirect, j)
  | doublyIndex i => .inr (doubly, i)
  | doublyEntry i j => .inr (doublyIndex i, j)

theorem place_injective : Function.Injective place := by
  have inlNe : ∀ i : Fin NDIRECT, (i.castLE direct_le : Fin (NDIRECT + 2)).val < NDIRECT :=
    fun i => i.isLt
  intro first second same
  cases first <;> cases second <;> simp only [place, Sum.inl.injEq, Sum.inr.injEq, Prod.mk.injEq,
    reduceCtorEq, Fin.ext_iff, Fin.val_castLE, direct.injEq, indirectEntry.injEq,
    doublyIndex.injEq, doublyEntry.injEq, true_and, false_and] at same ⊢ <;> omega

/-- Induction from the entries of `addrs[]` down the tree. -/
theorem descend {motive : Slot → Prop}
    (root : ∀ slot k, place slot = .inl k → motive slot)
    (child : ∀ slot parent i, place slot = .inr (parent, i) → motive parent → motive slot) :
    ∀ slot, motive slot := by
  have indirectCase : motive indirect := root indirect _ rfl
  have doublyCase : motive doubly := root doubly _ rfl
  have indexCase : ∀ i, motive (doublyIndex i) := fun i => child _ doubly i rfl doublyCase
  intro slot
  cases slot with
  | direct i => exact root _ _ rfl
  | indirect => exact indirectCase
  | indirectEntry j => exact child _ indirect j rfl indirectCase
  | doubly => exact doublyCase
  | doublyIndex i => exact indexCase i
  | doublyEntry i j => exact child _ (doublyIndex i) j rfl (indexCase i)

/-- A slot that other slots are stored below holds an index block. -/
theorem not_isData_of_place {slot parent : Slot} {i : Fin NINDIRECT}
    (here : place slot = .inr (parent, i)) : ¬ parent.IsData := by
  cases slot <;> simp only [place, Sum.inr.injEq, Prod.mk.injEq, reduceCtorEq] at here <;>
    obtain ⟨rfl, -⟩ := here <;> exact id

end Slot

/-- Entry `i` of the index block `bno`, zero when there is no such block. -/
def entry (disk : Disk) (bno i : Nat) : Nat := if bno = 0 then 0 else uintAt (disk bno) i

/-- The block number a slot holds. -/
def pointer (disk : Disk) (addrs : Fin (NDIRECT + 2) → Nat) : Slot → Nat
  | .direct i => addrs (i.castLE direct_le)
  | .indirect => addrs ⟨NDIRECT, indirect_lt⟩
  | .indirectEntry j => entry disk (addrs ⟨NDIRECT, indirect_lt⟩) j
  | .doubly => addrs ⟨NDIRECT + 1, doubly_lt⟩
  | .doublyIndex i => entry disk (addrs ⟨NDIRECT + 1, doubly_lt⟩) i
  | .doublyEntry i j => entry disk (entry disk (addrs ⟨NDIRECT + 1, doubly_lt⟩) i) j

section Tree

variable {disk after : Disk} {addrs addrs' : Fin (NDIRECT + 2) → Nat}

theorem pointer_root {slot : Slot} {k : Fin (NDIRECT + 2)} (here : slot.place = .inl k) :
    pointer disk addrs slot = addrs k := by
  cases slot <;> simp only [Slot.place, Sum.inl.injEq, reduceCtorEq] at here <;> subst here <;> rfl

theorem pointer_child {slot parent : Slot} {i : Fin NINDIRECT}
    (here : slot.place = .inr (parent, i)) :
    pointer disk addrs slot = entry disk (pointer disk addrs parent) i := by
  cases slot <;> simp only [Slot.place, Sum.inr.injEq, Prod.mk.injEq, reduceCtorEq] at here <;>
    obtain ⟨rfl, rfl⟩ := here <;> rfl

theorem parent_ne_zero {slot parent : Slot} {i : Fin NINDIRECT}
    (here : slot.place = .inr (parent, i)) (present : pointer disk addrs slot ≠ 0) :
    pointer disk addrs parent ≠ 0 := by
  intro zero
  rw [pointer_child here, zero, entry, if_pos rfl] at present
  exact present rfl

/-- The tree depends on `addrs` and on the index blocks alone. -/
theorem pointer_congr (same : ∀ k, addrs' k = addrs k)
    (index : ∀ slot, ¬ slot.IsData → pointer disk addrs slot ≠ 0 →
      after (pointer disk addrs slot) = disk (pointer disk addrs slot)) (slot : Slot) :
    pointer after addrs' slot = pointer disk addrs slot := by
  induction slot using Slot.descend with
  | root slot k here => rw [pointer_root here, pointer_root here, same]
  | child slot parent i here ih =>
    rw [pointer_child here, pointer_child here, ih, entry, entry]
    by_cases zero : pointer disk addrs parent = 0
    · rw [if_pos zero, if_pos zero]
    · rw [if_neg zero, if_neg zero, index parent (Slot.not_isData_of_place here) zero]

/-- The pointers of an inode without blocks. -/
theorem pointer_zero (disk : Disk) (slot : Slot) : pointer disk (fun _ => 0) slot = 0 := by
  induction slot using Slot.descend with
  | root slot k here => exact pointer_root here
  | child slot parent i here ih => rw [pointer_child here, ih, entry, if_pos rfl]

/-- Storing a zeroed block `b` in `addrs[k]`, the place of the empty slot `target`. -/
theorem pointer_store_root {target : Slot} {k : Fin (NDIRECT + 2)} {b : Nat}
    (here : target.place = .inl k) (empty : addrs k = 0) (nonzero : b ≠ 0)
    (zeroed : after b = fun _ => 0)
    (index : ∀ slot, ¬ slot.IsData → pointer disk addrs slot ≠ 0 →
      after (pointer disk addrs slot) = disk (pointer disk addrs slot)) (slot : Slot) :
    pointer after (Function.update addrs k b) slot =
      if slot = target then b else pointer disk addrs slot := by
  induction slot using Slot.descend with
  | root slot k' at_k' =>
    rw [pointer_root at_k', pointer_root at_k']
    by_cases same : slot = target
    · subst same
      obtain rfl : k' = k := Sum.inl.inj (at_k'.symm.trans here)
      rw [Function.update_self, if_pos rfl]
    · have different : k' ≠ k := by
        rintro rfl
        exact same (Slot.place_injective (at_k'.trans here.symm))
      rw [Function.update_of_ne different, if_neg same]
  | child slot parent i below ih =>
    have different : slot ≠ target := by
      rintro rfl
      rw [below] at here
      cases here
    rw [pointer_child below, pointer_child below, ih, if_neg different]
    by_cases isTarget : parent = target
    · rw [if_pos isTarget, entry, if_neg nonzero, zeroed, uintAt_zero, isTarget, pointer_root here,
        empty, entry, if_pos rfl]
    · rw [if_neg isTarget, entry, entry]
      by_cases zero : pointer disk addrs parent = 0
      · rw [if_pos zero, if_pos zero]
      · rw [if_neg zero, if_neg zero, index parent (Slot.not_isData_of_place below) zero]

/-- Storing a zeroed block `b` in entry `i` of an index block, the place of the empty slot
`target`. -/
theorem pointer_store_child {target holder : Slot} {i : Fin NINDIRECT} {b : Nat}
    (here : target.place = .inr (holder, i)) (present : pointer disk addrs holder ≠ 0)
    (empty : pointer disk addrs target = 0) (nonzero : b ≠ 0) (fits : b < 2 ^ 32)
    (zeroed : after b = fun _ => 0)
    (stored : after (pointer disk addrs holder) = setUint (disk (pointer disk addrs holder)) i b)
    (index : ∀ slot, ¬ slot.IsData → slot ≠ holder → pointer disk addrs slot ≠ 0 →
      after (pointer disk addrs slot) = disk (pointer disk addrs slot)) (slot : Slot) :
    pointer after addrs slot = if slot = target then b else pointer disk addrs slot := by
  induction slot using Slot.descend with
  | root slot k at_k =>
    have different : slot ≠ target := by
      rintro rfl
      rw [at_k] at here
      cases here
    rw [pointer_root at_k, pointer_root at_k, if_neg different]
  | child slot parent i' below ih =>
    rw [pointer_child below, ih]
    by_cases isTarget : parent = target
    · have different : slot ≠ target := by
        rintro rfl
        subst isTarget
        exact present (by
          have up := Sum.inr.inj (below.symm.trans here)
          rw [Prod.mk.injEq] at up
          rw [← up.1]
          exact empty)
      rw [if_pos isTarget, if_neg different, pointer_child below, isTarget, empty, entry,
        if_neg nonzero, zeroed, uintAt_zero, entry, if_pos rfl]
    · rw [if_neg isTarget, pointer_child below]
      by_cases zero : pointer disk addrs parent = 0
      · have different : slot ≠ target := by
          rintro rfl
          have up := Sum.inr.inj (below.symm.trans here)
          rw [Prod.mk.injEq] at up
          exact present (up.1 ▸ zero)
        rw [if_neg different, zero, entry, if_pos rfl, entry, if_pos rfl]
      · rw [entry, if_neg zero, entry, if_neg zero]
        by_cases isHolder : parent = holder
        · subst isHolder
          rw [stored]
          by_cases sameEntry : i' = i
          · subst sameEntry
            have same : slot = target := Slot.place_injective (below.trans here.symm)
            rw [if_pos same, uintAt_setUint_self _ _ fits]
          · have different : slot ≠ target := by
              rintro rfl
              have up := Sum.inr.inj (below.symm.trans here)
              rw [Prod.mk.injEq] at up
              exact sameEntry up.2
            rw [if_neg different, uintAt_setUint_of_ne _ _ fun same => sameEntry (Fin.ext same)]
        · have different : slot ≠ target := by
            rintro rfl
            have up := Sum.inr.inj (below.symm.trans here)
            rw [Prod.mk.injEq] at up
            exact isHolder up.1
          rw [if_neg different, index parent (Slot.not_isData_of_place below) isHolder zero]

end Tree

/-! ### The slot of a logical block -/

/-- The slot of the `bn`th block of a file. -/
def slotOf (bn : Nat) : Slot :=
  if direct : bn < NDIRECT then .direct ⟨bn, direct⟩
  else
    let bn := bn - NDIRECT
    if single : bn < NINDIRECT then .indirectEntry ⟨bn, single⟩
    else
      let bn := bn - NINDIRECT
      .doublyEntry ⟨bn / NINDIRECT % NINDIRECT, Nat.mod_lt _ NINDIRECT_pos⟩
        ⟨bn % NINDIRECT, Nat.mod_lt _ NINDIRECT_pos⟩

/-- The logical block of a data slot. -/
def blockOf : Slot → Nat
  | .direct i => i
  | .indirectEntry j => NDIRECT + j
  | .doublyEntry i j => NDIRECT + NINDIRECT + i * NINDIRECT + j
  | .indirect | .doubly | .doublyIndex _ => MAXFILE

theorem slotOf_direct {bn : Nat} (direct : bn < NDIRECT) : slotOf bn = .direct ⟨bn, direct⟩ :=
  dif_pos direct

theorem slotOf_single {bn : Nat} (single : bn < NINDIRECT) :
    slotOf (NDIRECT + bn) = .indirectEntry ⟨bn, single⟩ := by
  have shift : NDIRECT + bn - NDIRECT = bn := Nat.add_sub_cancel_left _ _
  rw [slotOf, dif_neg (by omega)]
  simp only [shift, single, dite_true]

theorem doubly_index_lt {bn : Nat} (double : bn < DNINDIRECT) : bn / NINDIRECT < NINDIRECT :=
  Nat.div_lt_of_lt_mul double

theorem slotOf_double {bn : Nat} (double : bn < DNINDIRECT) :
    slotOf (NDIRECT + (NINDIRECT + bn)) =
      .doublyEntry ⟨bn / NINDIRECT, doubly_index_lt double⟩
        ⟨bn % NINDIRECT, Nat.mod_lt _ NINDIRECT_pos⟩ := by
  have shift : NDIRECT + (NINDIRECT + bn) - NDIRECT = NINDIRECT + bn := Nat.add_sub_cancel_left _ _
  have beyond : ¬ NINDIRECT + bn < NINDIRECT := by omega
  have shift' : NINDIRECT + bn - NINDIRECT = bn := Nat.add_sub_cancel_left _ _
  rw [slotOf, dif_neg (by omega)]
  simp only [shift, beyond, dite_false, shift', Nat.mod_eq_of_lt (doubly_index_lt double)]

/-- The three ranges of logical blocks. -/
theorem block_cases {bn : Nat} (small : bn < MAXFILE) :
    bn < NDIRECT ∨ (∃ j, j < NINDIRECT ∧ bn = NDIRECT + j) ∨
      ∃ j, j < DNINDIRECT ∧ bn = NDIRECT + (NINDIRECT + j) := by
  have total : MAXFILE = NDIRECT + NINDIRECT + DNINDIRECT := rfl
  by_cases direct : bn < NDIRECT
  · exact Or.inl direct
  · by_cases single : bn - NDIRECT < NINDIRECT
    · exact Or.inr (Or.inl ⟨bn - NDIRECT, single, by omega⟩)
    · exact Or.inr (Or.inr ⟨bn - NDIRECT - NINDIRECT, by omega, by omega⟩)

theorem slotOf_isData (bn : Nat) : (slotOf bn).IsData := by
  unfold slotOf
  split
  · trivial
  · dsimp only
    split <;> trivial

theorem blockOf_slotOf {bn : Nat} (small : bn < MAXFILE) : blockOf (slotOf bn) = bn := by
  rcases block_cases small with direct | ⟨j, single, rfl⟩ | ⟨j, double, rfl⟩
  · rw [slotOf_direct direct, blockOf]
  · rw [slotOf_single single, blockOf]
  · rw [slotOf_double double, blockOf]
    have divided := Nat.div_add_mod' j NINDIRECT
    dsimp only
    omega

theorem slotOf_injective {bn bn' : Nat} (small : bn < MAXFILE) (small' : bn' < MAXFILE)
    (same : slotOf bn = slotOf bn') : bn = bn' := by
  rw [← blockOf_slotOf small, same, blockOf_slotOf small']

end Csc3150.FileSystem
