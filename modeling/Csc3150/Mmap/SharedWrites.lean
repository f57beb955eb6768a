/-
**Writing shared pages back.**

`sys_munmap` writes the resident pages of a shared and writable region back, whole, and then unmaps the
range.

* `writeback_absent`, `writeback_accepted` — one turn of the loop;
* `sys_munmap_shared`, `unmapRange_returns` — the call, and what follows the loop.
-/

import Csc3150.Mmap.Paging
import Csc3150.Mmap.Teardown

namespace Csc3150.Mmap

open ByteBuffer Outcome Program Search Transition

variable {Ip σ : Type} {layer : FileLayer Ip σ} {k k' : Kernel Ip σ} {pid : Pid}
  {addr : Nat} {length : Int32} {i : Fin VMASIZE} {v : Vma} {ip : Ip} {r : Int}

/-- The page-table entry of a resident page of a process. -/
def Kernel.resident (k : Kernel Ip σ) (pid : Pid) (vpn : Nat) : Option Pte :=
  (k.proc pid).pagetable.walkaddr (vpn * PGSIZE)

/-- The file offset of the first byte of a page of a region. -/
def Vma.pageOffset (v : Vma) (vpn : Nat) : Nat := v.offset.toInt.toNat + (vpn * PGSIZE - v.addr)

theorem pageOffset_apart {a b : Nat} (above : v.addr ≤ a * PGSIZE) (above' : v.addr ≤ b * PGSIZE)
    (different : a ≠ b) : v.pageOffset a + PGSIZE ≤ v.pageOffset b ∨
      v.pageOffset b + PGSIZE ≤ v.pageOffset a := by
  unfold Vma.pageOffset PGSIZE at *
  omega

/-! ### The loop -/

theorem writeback_absent {vpn : Nat} {rest : List Nat} (absent : k.resident pid vpn = none) :
    writeback layer pid v ip (vpn :: rest) k = writeback layer pid v ip rest k := by
  rw [Kernel.resident] at absent
  rw [writeback]
  simp only [absent]

theorem writeback_accepted {vpn : Nat} {rest : List Nat} {pte : Pte} {fs : σ} {r : Int}
    (present : k.resident pid vpn = some pte)
    (stored : layer.writei k.fs ip (v.fileOffset (vpn * PGSIZE))
      (read (k.ram.page pte.frame) 0 PGSIZE) = (r, fs)) (accepted : 0 ≤ r) :
    writeback layer pid v ip (vpn :: rest) k = writeback layer pid v ip rest
      { k with fs := fs, written := ⟨ip, vpn, v.fileOffset (vpn * PGSIZE)⟩ :: k.written } := by
  rw [Kernel.resident] at present
  rw [writeback]
  simp only [present, stored]
  exact if_neg (not_lt.mpr accepted)

/-! ### The rest of the call -/

/-- What `sys_munmap` does after the write-back. -/
def unmapRange (layer : FileLayer Ip σ) (pid : Pid) (i : Fin VMASIZE) (v : Vma) (range : Nat × Nat) :
    KProg Ip σ Int := do
  inSpace pid (uvmunmap range.1 (word (range.2 - range.1) / PGSIZE) (!v.isShared))
  if range.1 = v.addr ∧ range.2 = v.limit then closeVma layer pid i
  return 0

/-- Unmapping pages of a shared and writable region. -/
theorem sys_munmap_shared (found : VmaTable.find (k.proc pid).vma addr = some i)
    (shared : ((k.proc pid).vma i).isShared = true)
    (writable : ((k.proc pid).vma i).isWritable = true)
    (inode : (k.file ((k.proc pid).vma i).file).ip = some ip) :
    sys_munmap layer pid addr length k =
      if layer.ref k.fs ip < 1 then .error .ilock
      else writeback layer pid ((k.proc pid).vma i) ip
          (pagesBetween (munmapRange addr length).1 (munmapRange addr length).2) k >>= fun result =>
        if result.1 then
          unmapRange layer pid i ((k.proc pid).vma i) (munmapRange addr length) result.2
        else .ok (-1, result.2) := by
  rw [sys_munmap, found]
  dsimp only
  rw [if_pos (by rw [shared, writable]; rfl), inode, ilock]
  split <;> rfl

/-- A range of whole pages. -/
theorem munmapRange_pages (aligned : addr % PGSIZE = 0) (whole : length.toInt % PGSIZE = 0)
    (positive : 0 < length.toInt) (top : addr + length.toInt ≤ TRAPFRAME) :
    munmapRange addr length = (addr, addr + length.toInt.toNat) := by
  unfold munmapRange
  refine Prod.ext ?_ ?_ <;> dsimp only
  · unfold PGROUNDDOWN PGSIZE at *
    omega
  · unfold PGROUNDUP PGROUNDDOWN word
    unfold TRAPFRAME TRAMPOLINE MAXVA PGSIZE at *
    omega

/-- Closing a file with an inode drops a reference to it, if anything. -/
theorem fileclose_inode {f : Fp} (held : 1 ≤ (k.file f).ref) (type : (k.file f).type = .inode)
    (inode : (k.file f).ip = some ip) : ∃ k', fileclose layer f k = .ok ((), k') ∧
      k'.proc = k.proc ∧ (k'.fs = k.fs ∨ k'.fs = layer.iput k.fs ip) := by
  rw [fileclose]
  dsimp only
  rw [if_neg (by omega)]
  split_ifs
  · exact ⟨_, rfl, rfl, Or.inl rfl⟩
  · rw [type, inode]
    exact ⟨_, rfl, rfl, Or.inr rfl⟩

/-- The loop over a range of whole pages. -/
theorem unmapRange_loop {range : Nat × Nat} (aligned : range.1 % PGSIZE = 0)
    (aligned' : range.2 % PGSIZE = 0) (nonempty : range.1 ≤ range.2) (top : range.2 ≤ TRAPFRAME)
    (do_free : Bool) : uvmunmap range.1 (word (range.2 - range.1) / PGSIZE) do_free =
      (pagesBetween range.1 range.2).forM (unmapPage do_free) := by
  have stop : word (range.1 + (word ((range.2 : Int) - range.1) / PGSIZE : Nat) * PGSIZE) =
      range.2 := by
    unfold word
    unfold TRAPFRAME TRAMPOLINE MAXVA PGSIZE at *
    omega
  rw [uvmunmap, if_neg (not_not.mpr aligned), stop]

section UnmapRange

variable {range : Nat × Nat} (aligned : range.1 % PGSIZE = 0) (aligned' : range.2 % PGSIZE = 0)
  (nonempty : range.1 ≤ range.2) (top : range.2 ≤ TRAPFRAME)

include aligned aligned' nonempty top

/-- What follows the loop ends only when the tree reaches every page of the range. -/
theorem unmapRange_reaches (run : unmapRange layer pid i v range k = .ok (r, k')) :
    ∀ vpn ∈ pagesBetween range.1 range.2, Reaches (k.proc pid).pagetable.pages vpn := by
  obtain ⟨⟨⟩, k₁, unmapped, -⟩ := bind_ends.mp run
  obtain ⟨s, ends, -⟩ := inSpace_ends.mp unmapped
  rw [unmapRange_loop aligned aligned' nonempty top] at ends
  exact fun vpn member => ((unmapPages_ends_iff (k.space pid)).mp ⟨s, ends⟩ vpn member).2

/-- It returns 0 then, and drops at most a reference to the inode of the region's file. -/
theorem unmapRange_returns (reached : ∀ vpn ∈ pagesBetween range.1 range.2,
      Reaches (k.proc pid).pagetable.pages vpn)
    (held : 1 ≤ (k.file ((k.proc pid).vma i).file).ref)
    (type : (k.file ((k.proc pid).vma i).file).type = .inode)
    (inode : (k.file ((k.proc pid).vma i).file).ip = some ip) :
    ∃ k', unmapRange layer pid i ((k.proc pid).vma i) range k = .ok (0, k') ∧
      (k'.fs = k.fs ∨ k'.fs = layer.iput k.fs ip) := by
  obtain ⟨s, unmapped⟩ := (@unmapPages_ends_iff (!((k.proc pid).vma i).isShared) _
    (k.space pid)).mpr fun vpn member => ⟨by
      have below := (mem_pagesBetween.mp member).2
      unfold TRAPFRAME TRAMPOLINE MAXVA PGSIZE at *
      omega, reached vpn member⟩
  rw [← unmapRange_loop aligned aligned' nonempty top] at unmapped
  have first : inSpace pid (uvmunmap range.1 (word (range.2 - range.1) / PGSIZE)
      (!((k.proc pid).vma i).isShared)) k = .ok ((), k.setSpace pid s) :=
    inSpace_ends.mpr ⟨s, unmapped, rfl⟩
  by_cases all : range.1 = ((k.proc pid).vma i).addr ∧ range.2 = ((k.proc pid).vma i).limit
  · have slot : ((k.setSpace pid s).proc pid).vma i = (k.proc pid).vma i := by
      rw [Kernel.setSpace_proc, Function.update_self]
      rfl
    obtain ⟨k₁, closed, -, same⟩ := @fileclose_inode _ _ layer (k.setSpace pid s) ip
      ((k.proc pid).vma i).file held type inode
    have close : closeVma layer pid i (k.setSpace pid s) = .ok ((), k₁.setProc pid
        ((k₁.proc pid).setVma (Function.update (k₁.proc pid).vma i ((k₁.proc pid).vma i).free))) := by
      rw [closeVma, slot, closed]
      rfl
    obtain ⟨k₂, ends, sameFs⟩ : ∃ k₂, closeVma layer pid i (k.setSpace pid s) = .ok ((), k₂) ∧
      k₂.fs = k₁.fs := ⟨_, close, rfl⟩
    refine ⟨k₂, bind_ends.mpr ⟨(), _, first, ?_⟩, ?_⟩
    · rw [if_pos all]
      exact bind_ends.mpr ⟨(), k₂, ends, rfl⟩
    · rw [sameFs]
      exact same
  · refine ⟨k.setSpace pid s, bind_ends.mpr ⟨(), _, first, ?_⟩, Or.inl rfl⟩
    rw [if_neg all]
    rfl

end UnmapRange

end Csc3150.Mmap
