/-
**Reads that allocate nothing.**

`readi` finds its blocks with `bmap`, which allocates the ones that are missing.

* `readi_any_allocator` — on a file without holes, `readi` gives the same result with every allocator in the
  place of `balloc`, even one that panics, so that `balloc` is not called.
-/

import Csc3150.FileSystem.InodeCalls

namespace Csc3150.FileSystem

open ByteBuffer Outcome

/-! ### Without holes -/

section Mapped

variable {disk : Disk} {ip : Inode}

theorem entry_present {bno i : Nat} (present : entry disk bno i ≠ 0) :
    bno ≠ 0 ∧ entry disk bno i = uintAt (disk bno) i := by
  have nonzero : bno ≠ 0 := fun zero => present (if_pos zero)
  exact ⟨nonzero, if_neg nonzero⟩

/-- A mapped block is found without the allocator, in each of the three tiers. -/
theorem bmapWith_present (alloc : Allocator Disk) {bn : Nat} (small : bn < MAXFILE)
    (present : pointer disk ip.addrs (slotOf bn) ≠ 0) :
    bmapWith .disk alloc disk ip bn = .ok (disk, ip, pointer disk ip.addrs (slotOf bn)) := by
  have root {k : Fin (NDIRECT + 2)} (present : ip.addrs k ≠ 0) :=
    inodeAddrWith_present alloc disk present
  have child {bno i : Nat} (present : entry disk bno i ≠ 0) :
      blockAddrWith .disk alloc disk bno i = .ok (disk, entry disk bno i) := by
    obtain ⟨-, same⟩ := entry_present present
    rw [same] at present ⊢
    exact blockAddrWith_present alloc present
  rcases block_cases small with direct | ⟨j, single, rfl⟩ | ⟨j, double, rfl⟩
  · rw [slotOf_direct direct] at present ⊢
    exact (bmapWith_direct direct).trans (root present)
  · rw [slotOf_single single] at present ⊢
    have up := (entry_present present).1
    exact (bmapWith_single single (root up)).trans ((if_neg up).trans (bind_of_ok (child present)))
  · rw [slotOf_double double] at present ⊢
    have middle := (entry_present present).1
    have up := (entry_present middle).1
    refine (bmapWith_double double (root up)).trans ((if_neg up).trans ?_)
    exact (bind_of_ok (child middle)).trans ((if_neg middle).trans (bind_of_ok (child present)))

/-- Over mapped blocks the loop of `readi` is the same for every allocator. -/
theorem readiLoopWith_congr (alloc alloc' : Allocator Disk) (dst : CopyOut) (n : Nat) :
    ∀ (fuel off tot : Nat) (copied : List UInt8),
      (∀ k, off ≤ k → k < off + (n - tot) →
        k / BSIZE < MAXFILE ∧ pointer disk ip.addrs (slotOf (k / BSIZE)) ≠ 0) →
      readiLoopWith alloc dst n fuel disk ip off tot copied =
        readiLoopWith alloc' dst n fuel disk ip off tot copied := by
  intro fuel
  induction fuel with
  | zero => exact fun _ _ _ _ => rfl
  | succ fuel ih =>
    intro off tot copied mapped
    rw [readiLoopWith, readiLoopWith]
    by_cases more : tot < n
    · obtain ⟨inside, present⟩ := mapped off le_rfl (by omega)
      rw [if_pos more, if_pos more, bind_of_ok (bmapWith_present alloc inside present),
        bind_of_ok (bmapWith_present alloc' inside present)]
      dsimp only
      rw [ih]
      intro k lower upper
      exact mapped k (by omega) (by omega)
    · rw [if_neg more, if_neg more]

end Mapped

/-- **`readi` allocates nothing** on a file without holes. -/
theorem readi_any_allocator {sb : Superblock} {disk : Disk} {ip : Inode} (image : Image sb disk)
    (cached : Cached sb disk ip) (small : ip.size ≤ MAXFILE * BSIZE) (alloc : Allocator Disk)
    (dst : CopyOut) (off n : UInt32) :
    readiWith alloc disk ip dst off n = readi sb disk ip dst off n := by
  rw [readi, readiWith, readiWith]
  by_cases beyond : ip.size < off.toNat ∨ off + n < off
  · rw [if_pos beyond, if_pos beyond]
  · rw [if_neg beyond, if_neg beyond]
    dsimp only
    refine readiLoopWith_congr _ _ _ _ _ _ _ _ fun k lower upper => ?_
    have inRange := beyond
    rw [add_lt_left_iff] at inRange
    have sum : (off + n).toNat = off.toNat + n.toNat := by
      rw [UInt32.toNat_add]
      omega
    have below : k < ip.size := by
      rw [sum] at upper
      split_ifs at upper <;> omega
    have inside : k / BSIZE < MAXFILE := Nat.div_lt_of_lt_mul (by rw [Nat.mul_comm]; omega)
    have present := image.filled ip.inum cached.inUse _ inside
    rw [← cached.same] at present
    exact ⟨inside, present (lt_of_le_of_lt (Nat.div_mul_le_self _ _) below)⟩

end Csc3150.FileSystem
