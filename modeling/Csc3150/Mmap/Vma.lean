/-
**Mapped regions of a process.**

`struct vma` and the arithmetic that `sys_mmap`, `sys_munmap` and the page-fault branch of `usertrap`
do on it. A `uint64` is a `Nat` and every operation on one that may leave the 64 bits goes through
`word`; an `int` is an `Int32`.

* `VmaTable.find` — the lookup loop of the three functions;
* `VmaTable.place` — the placement loop of `sys_mmap`, which stops at the first free slot;
* `Vma.Placed` — what a region has when `sys_mmap` made it: whole pages below the trapframe, and
  never so low that the sums of the lookup wrap.
-/

import Csc3150.Library.Search
import Mathlib.Algebra.Ring.Int.Defs
import Mathlib.Algebra.Ring.Nat
import Mathlib.Data.Set.Lattice
import Mathlib.Order.CompletePartialOrder
import Mathlib.Order.Interval.Set.Disjoint

namespace Csc3150.Mmap

open Search

/-! ### Machine words and pages -/

/-- Bytes per page. -/
def PGSIZE : Nat := 4096

theorem PGSIZE_pos : 0 < PGSIZE := Nat.zero_lt_succ _

/-- One beyond the highest possible virtual address. -/
def MAXVA : Nat := 2 ^ 38

/-- The trampoline page, the highest of every address space. -/
def TRAMPOLINE : Nat := MAXVA - PGSIZE

/-- The trapframe page, below the trampoline; mapped regions start below it. -/
def TRAPFRAME : Nat := TRAMPOLINE - PGSIZE

/-- The value of an integer in a `uint64`. -/
def word (z : Int) : Nat := (z % 2 ^ 64).toNat

/-- The start of the page of an address. -/
def PGROUNDDOWN (a : Nat) : Nat := a / PGSIZE * PGSIZE

/-- A `uint64` rounded up to a page boundary. -/
def PGROUNDUP (sz : Nat) : Nat := PGROUNDDOWN (word (sz + (PGSIZE - 1)))

/-- The same macro on an `int`. -/
def PGROUNDUP_int (sz : Int32) : Int32 := (sz + 4095) &&& ~~~ 4095

theorem Int32.mask_toInt (n : Int32) : (n &&& ~~~ 4095).toInt = n.toInt - n.toInt % 4096 := by
  have mask : (n &&& ~~~ 4095).toBitVec = n.toBitVec >>> 12 <<< 12 := by
    rw [BitVec.shiftLeft_ushiftRight]
    rfl
  have low : (n &&& ~~~ 4095).toBitVec.toNat = n.toBitVec.toNat / 4096 * 4096 := by
    rw [mask, BitVec.toNat_shiftLeft, BitVec.toNat_ushiftRight, Nat.shiftRight_eq_div_pow,
      Nat.shiftLeft_eq]
    have small := n.toBitVec.isLt
    omega
  have small := n.toBitVec.isLt
  rw [← Int32.toInt_toBitVec, ← Int32.toInt_toBitVec, BitVec.toInt_eq_toNat_cond,
    BitVec.toInt_eq_toNat_cond, low]
  split <;> split <;> omega

/-- Rounding an `int` up, which wraps within a page of the largest one. -/
theorem PGROUNDUP_int_toInt (sz : Int32) :
    (PGROUNDUP_int sz).toInt =
      (sz.toInt + 4095).bmod (2 ^ 32) - (sz.toInt + 4095).bmod (2 ^ 32) % 4096 := by
  rw [PGROUNDUP_int, Int32.mask_toInt, Int32.toInt_add]
  rfl

/-- A rounded length that is positive is a whole number of pages. -/
theorem PGROUNDUP_int_pages (sz : Int32) : (PGROUNDUP_int sz).toInt % PGSIZE = 0 := by
  rw [PGROUNDUP_int_toInt]
  unfold PGSIZE
  omega

/-- Rounding a rounded length changes nothing. -/
theorem PGROUNDUP_int_of_pages {sz : Int32} (pages : sz.toInt % PGSIZE = 0) :
    (PGROUNDUP_int sz).toInt = sz.toInt := by
  have upper := sz.toInt_lt
  have lower := sz.le_toInt
  unfold PGSIZE at pages
  have same : (sz.toInt + 4095).bmod (2 ^ 32) = sz.toInt + 4095 := by
    apply Int.bmod_eq_of_le <;> omega
  rw [PGROUNDUP_int_toInt, same]
  omega

theorem PGROUNDDOWN_le (a : Nat) : PGROUNDDOWN a ≤ a := Nat.div_mul_le_self _ _

@[simp] theorem PGROUNDDOWN_mod (a : Nat) : PGROUNDDOWN a % PGSIZE = 0 := Nat.mul_mod_left _ _

@[simp] theorem PGROUNDDOWN_div (a : Nat) : PGROUNDDOWN a / PGSIZE = a / PGSIZE := by
  unfold PGROUNDDOWN PGSIZE
  omega

/-! ### Regions -/

/-- Open files of the system. -/
def NFILE : Nat := 100

/-- A pointer to an entry of `ftable.file[]`. -/
abbrev Fp := Fin NFILE

/-- Regions of a process. -/
def VMASIZE : Nat := 16

def PROT_READ : Int32 := 1
def PROT_WRITE : Int32 := 2
def PROT_EXEC : Int32 := 4

def MAP_SHARED : Int32 := 1
def MAP_PRIVATE : Int32 := 2

/-- A contiguous region of virtual memory backed by a file (`struct vma`). -/
structure Vma where
  addr : Nat
  length : Int32
  prot : Int32
  flags : Int32
  file : Fp
  offset : Int32
  used : Bool
  deriving DecidableEq

/-- `p->vma[]`. -/
abbrev VmaTable := Fin VMASIZE → Vma

namespace Vma

variable (v : Vma)

/-- `addr + length` as the code computes it. -/
def limit : Nat := word (v.addr + v.length.toInt)

/-- The test of the lookup loops. -/
def contains (a : Nat) : Bool := v.used && decide (v.addr ≤ a) && decide (a < v.limit)

def isShared : Bool := v.flags &&& MAP_SHARED != 0
def isReadable : Bool := v.prot &&& PROT_READ != 0
def isWritable : Bool := v.prot &&& PROT_WRITE != 0
def isExecutable : Bool := v.prot &&& PROT_EXEC != 0

/-- The number of bytes of the region. -/
def size : Nat := v.length.toInt.toNat

/-- The addresses of the region. -/
def range : Set Nat := Set.Ico v.addr (v.addr + v.size)

/-- The region is made of whole pages below the trapframe, and slot `i` is at most `2 * i + 1` of the
largest lengths below it. -/
structure Placed (i : Nat) : Prop where
  aligned : v.addr % PGSIZE = 0
  pages : v.size % PGSIZE = 0
  nonempty : 0 < v.size
  top : v.addr + v.size ≤ TRAPFRAME
  bottom : TRAPFRAME ≤ v.addr + (2 * i + 1) * 2 ^ 31

theorem size_lt : v.size < 2 ^ 31 := by
  have upper := v.length.toInt_lt
  unfold size
  omega

variable {v}

namespace Placed

variable {i : Nat}

theorem length_eq (placed : v.Placed i) : v.length.toInt = v.size := by
  have positive := placed.nonempty
  unfold size at positive ⊢
  omega

theorem limit_eq (placed : v.Placed i) : v.limit = v.addr + v.size := by
  have top := placed.top
  have wide := placed.length_eq
  unfold TRAPFRAME TRAMPOLINE MAXVA PGSIZE at top
  unfold limit word
  omega

theorem round_eq (placed : v.Placed i) : (PGROUNDUP_int v.length).toInt = v.size := by
  have wide := placed.length_eq
  have pages := placed.pages
  rw [PGROUNDUP_int_of_pages, wide]
  unfold PGSIZE at pages ⊢
  omega

theorem contains_iff (placed : v.Placed i) {a : Nat} :
    v.contains a = true ↔ v.used = true ∧ a ∈ v.range := by
  rw [contains, placed.limit_eq, Bool.and_eq_true, Bool.and_eq_true, decide_eq_true_iff,
    decide_eq_true_iff, and_assoc]
  rfl

/-- Regions are far above everything else a process has. -/
theorem high (placed : v.Placed i) (slot : i < VMASIZE) : 2 ^ 37 < v.addr := by
  have bottom := placed.bottom
  unfold TRAPFRAME TRAMPOLINE MAXVA PGSIZE at bottom
  unfold VMASIZE at slot
  omega

end Placed

end Vma

namespace VmaTable

variable (table : VmaTable)

/-- The first region that contains an address. -/
def find (a : Nat) : Option (Fin VMASIZE) :=
  searchFin fun i => if (table i).contains a then some i else none

/-- One turn of the placement loop at a used slot. -/
def lower (v : Vma) (assigned : Nat) : Nat :=
  if v.addr < assigned then word (v.addr - (PGROUNDUP_int v.length).toInt) else assigned

/-- The placement loop of `sys_mmap` over the slots it has not seen. -/
def placeLoop : List (Fin VMASIZE) → (assigned : Nat) → Option (Fin VMASIZE) × Nat
  | [], assigned => (none, assigned)
  | i :: rest, assigned =>
    if (table i).used then placeLoop rest (lower (table i) assigned) else (some i, assigned)

/-- The first free slot, and the address below which its region goes. -/
def place : Option (Fin VMASIZE) × Nat :=
  placeLoop table (List.finRange VMASIZE) (MAXVA - 2 * PGSIZE)

/-- Every used slot was placed by `sys_mmap`. -/
def Placed : Prop := ∀ i, (table i).used = true → (table i).Placed i

/-- Any two distinct used regions are disjoint. -/
def Apart : Prop := ∀ i j, i ≠ j → (table i).used = true → (table j).used = true →
  Disjoint (table i).range (table j).range

variable {table}

theorem find_eq_some_iff {a : Nat} {i : Fin VMASIZE} :
    find table a = some i ↔
      (table i).contains a = true ∧ ∀ j, j < i → (table j).contains a = false := by
  rw [find, searchFin_eq_some_iff]
  constructor
  · rintro ⟨j, found, before⟩
    rw [Option.ite_none_right_eq_some, Option.some.injEq] at found
    obtain ⟨holds, rfl⟩ := found
    refine ⟨holds, fun k earlier => ?_⟩
    have here := before k earlier
    rwa [ite_eq_right_iff, imp_iff_not (Option.some_ne_none _), Bool.not_eq_true] at here
  · rintro ⟨holds, before⟩
    refine ⟨i, if_pos holds, fun j earlier => if_neg ?_⟩
    rw [before j earlier]
    exact Bool.false_ne_true

theorem find_eq_none_iff {a : Nat} :
    find table a = none ↔ ∀ i, (table i).contains a = false := by
  rw [find, searchFin_eq_none_iff]
  refine forall_congr' fun i => ?_
  rw [ite_eq_right_iff, imp_iff_not (Option.some_ne_none _), Bool.not_eq_true]

end VmaTable

end Csc3150.Mmap
