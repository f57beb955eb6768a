/-
**Every page is somewhere.**

`Kernel.frames` is the multiset of all frames that the kernel knows: the free list, the trapframes, the
page tables, and the pages that processes have mapped.

* `frames_accounted` — over any run it loses only the pages of `MAP_SHARED` regions that `munmap` and
  `exit` unmap, which they do not give back;
* `frames_distinct` — no frame is twice in it: no page is free and mapped, or mapped by two processes,
  or mapped and part of a page table.
-/

import Csc3150.Mmap.Frames
import Csc3150.Mmap.Regions
import Mathlib.Data.Multiset.OrderedMonoid

namespace Csc3150.Mmap

open ByteBuffer Outcome Program Search Transition

variable {Ip σ α : Type} {layer : FileLayer Ip σ} {k k' : Kernel Ip σ} {pid q : Pid}

/-! ### Frames of the kernel -/

def Proc.frames (p : Proc Ip) : Multiset Nat :=
  (p.trapframe.elim 0 fun frame => {frame}) + p.pagetable.frames

@[irreducible] def Kernel.frames (k : Kernel Ip σ) : Multiset Nat :=
  (k.ram.free : Multiset Nat) + ∑ q, (k.proc q).frames

/-- The frames are read off the free list, the trapframes and the page tables. -/
theorem frames_congr (free : k'.ram.free = k.ram.free)
    (procs : ∀ q, (k'.proc q).frames = (k.proc q).frames) : k'.frames = k.frames := by
  unfold Kernel.frames
  rw [free, Finset.sum_congr rfl fun q _ => procs q]

theorem frames_fill (k : Kernel Ip σ) (frame : Nat) (bytes : Buffer) :
    { k with ram := k.ram.fill frame bytes }.frames = k.frames :=
  frames_congr rfl fun _ => rfl

theorem frames_fs (k : Kernel Ip σ) (fs : σ) : { k with fs := fs }.frames = k.frames :=
  frames_congr rfl fun _ => rfl

/-- The frames of one process apart. -/
theorem frames_split (k : Kernel Ip σ) (pid : Pid) : k.frames =
    k.ram.free + (k.proc pid).frames + ∑ q ∈ Finset.univ.erase pid, (k.proc q).frames := by
  rw [Kernel.frames, ← Finset.add_sum_erase _ _ (Finset.mem_univ pid), add_assoc]

/-- Frames move between the free list and one process. -/
theorem frames_of_update (lost gained : Multiset Nat) {p : Proc Ip}
    (procs : k'.proc = Function.update k.proc pid p)
    (own : k'.ram.free + p.frames + lost = k.ram.free + (k.proc pid).frames + gained) :
    k'.frames + lost = k.frames + gained := by
  have others : ∑ q ∈ Finset.univ.erase pid, (k'.proc q).frames =
      ∑ q ∈ Finset.univ.erase pid, (k.proc q).frames :=
    Finset.sum_congr rfl fun q member => by
      rw [procs, Function.update_of_ne (Finset.ne_of_mem_erase member)]
  rw [frames_split k' pid, frames_split k pid, others, procs, Function.update_self,
    add_right_comm, own, add_right_comm]

/-- What happens in the space of a process, as its share of the kernel. -/
theorem space_frames {lost gained : Multiset Nat} {s : Space} {p : Proc Ip}
    (kept : s.frames + lost = (k.space pid).frames + gained)
    (trapframe : p.trapframe = (k.proc pid).trapframe) (table : p.pagetable = s.table) :
    s.ram.free + p.frames + lost = k.ram.free + (k.proc pid).frames + gained := by
  have arranged : ∀ free tf table more : Multiset Nat,
      free + (tf + table) + more = tf + (free + table + more) := fun free tf table more => by
    rw [add_left_comm, add_assoc]
  rw [Proc.frames, Proc.frames, arranged, arranged, trapframe, table]
  exact congrArg _ kept

/-- A program of the virtual memory, run for a process. -/
theorem inSpace_frames (lost gained : Multiset Nat) {x : VmProg α} {a : α}
    (run : inSpace pid x k = .ok (a, k'))
    (kept : ∀ s, x (k.space pid) = .ok (a, s) → s.frames + lost = (k.space pid).frames + gained) :
    k'.frames + lost = k.frames + gained := by
  obtain ⟨s, ends, rfl⟩ := inSpace_ends.mp run
  exact frames_of_update lost gained rfl (space_frames (kept s ends) rfl rfl)

/-- A function that neither takes nor gives. -/
theorem inSpace_keeps {x : VmProg α} {a : α} (run : inSpace pid x k = .ok (a, k'))
    (kept : ∀ s, x (k.space pid) = .ok (a, s) → s.frames = (k.space pid).frames) :
    k'.frames = k.frames := by
  have same := inSpace_frames 0 0 run fun s ends => by rw [kept s ends]
  simpa only [add_zero] using same

/-- A change of a process that leaves its trapframe and page table alone. -/
theorem frames_of_proc {p : Proc Ip} (procs : k'.proc = Function.update k.proc pid p)
    (free : k'.ram.free = k.ram.free) (same : p.frames = (k.proc pid).frames) :
    k'.frames = k.frames := by
  refine frames_congr free fun q => ?_
  by_cases own : q = pid
  · rw [own, procs, Function.update_self, same]
  · rw [procs, Function.update_of_ne own]

theorem modifyProc_frames {change : Proc Ip → Proc Ip}
    (same : (change (k.proc pid)).frames = (k.proc pid).frames)
    (run : modifyProc pid change k = .ok ((), k')) : k'.frames = k.frames := by
  rw [modifyProc_ends] at run
  subst run
  exact frames_of_proc rfl rfl same

/-! ### `sys_mmap`, `sys_munmap` and page faults -/

/-- Mapping a file takes no page yet. -/
theorem sys_mmap_frames {args : MmapArgs} {r : Int} (run : sys_mmap pid args k = .ok (r, k')) :
    k'.frames = k.frames := by
  rcases sys_mmap_ends run with ⟨-, rfl⟩ | ⟨f, slot, assigned, v, -, -, -, -, -, -, rfl⟩
  · rfl
  · exact frames_of_proc rfl rfl rfl

/-- Closing a file frees no page that counts. -/
theorem closeVma_frames {i : Fin VMASIZE} (run : closeVma layer pid i k = .ok ((), k')) :
    k'.frames = k.frames := by
  obtain ⟨-, file, fs, rfl, -⟩ := closeVma_ends run
  exact frames_of_proc rfl rfl rfl

/-- The page that a fault is about to map. -/
theorem lend_frames {s s' : Space} {found : Option Nat} (run : lend s = .ok (found, s')) :
    s'.frames + (found.elim 0 fun frame => {frame}) = s.frames := by
  obtain ⟨taken, s₁, allocated, rest⟩ := bind_ends.mp run
  obtain ⟨-, less⟩ := kalloc_frames allocated
  cases taken with
  | none =>
    cases rest
    exact less
  | some frame =>
    obtain ⟨⟨⟩, s₂, lent, rest⟩ := bind_ends.mp rest
    cases lent
    cases rest
    exact less

theorem setkilled_frames (run : setkilled pid k = .ok ((), k')) : k'.frames = k.frames :=
  modifyProc_frames rfl run

theorem kfree_kernel_frames {frame : Nat} (run : inSpace pid (kfree frame) k = .ok ((), k')) :
    k'.frames = k.frames + {frame} := by
  have more := inSpace_frames 0 {frame} run fun s ends => by
    cases ends
    rw [add_zero]
    exact kfree_frames _ frame
  simpa only [add_zero] using more

theorem VmaTable.Placed.find_low {table : VmaTable} {addr : Nat} {i : Fin VMASIZE} (placed : table.Placed)
    (found : VmaTable.find table addr = some i) : addr < TRAPFRAME := by
  have contains := (VmaTable.find_eq_some_iff.mp found).1
  have used : (table i).used = true := by
    rw [Vma.contains, Bool.and_eq_true, Bool.and_eq_true] at contains
    exact contains.1.1
  have here := placed i used
  exact Nat.lt_of_lt_of_le (here.contains_iff.mp contains).2.2 here.top

/-- A page fault at the start of a page. -/
theorem pageFault_frames {addr : Nat} (placed : (k.proc pid).vma.Placed) (aligned : addr % PGSIZE = 0)
    (run : pageFault layer pid addr k = .ok ((), k')) : k'.frames = k.frames := by
  unfold pageFault at run
  split at run
  · cases run
  · next i found =>
    have low := placed.find_low found
    have small : addr + PGSIZE ≤ 2 ^ 64 := by
      unfold TRAPFRAME TRAMPOLINE MAXVA PGSIZE at *
      omega
    have user : addr / PGSIZE ∈ userPages := mem_userPages.mpr <| by
      unfold TRAPFRAME TRAMPOLINE MAXVA PGSIZE at *
      omega
    dsimp only at run
    obtain ⟨⟨usable, k₁⟩, lent, rest⟩ := bind_eq_ok.mp run
    have less := inSpace_frames (usable.elim 0 fun frame => {frame}) 0 lent
      fun s ends => (lend_frames ends).trans (add_zero _).symm
    rw [add_zero] at less
    cases usable with
    | none => exact (setkilled_frames rest).trans ((add_zero _).symm.trans less)
    | some frame =>
      obtain ⟨ip, -, rest⟩ := bind_eq_ok.mp rest
      dsimp only at rest
      split at rest
      · obtain ⟨⟨⟨⟩, k₂⟩, freed, rest⟩ := bind_eq_ok.mp rest
        rw [setkilled_frames rest, kfree_kernel_frames freed, frames_fill]
        exact less
      · obtain ⟨⟨mapped, k₂⟩, map, rest⟩ := bind_eq_ok.mp rest
        have more := inSpace_frames 0
          (mappedFrame mapped (addr / PGSIZE) (((k.proc pid).vma i).entry frame)) map
          fun s ends => (add_zero _).trans (mappages_frames aligned small ends)
        rw [add_zero] at more
        split at rest
        · next is_mapped =>
          cases rest
          rw [more, mappedFrame, if_pos ⟨is_mapped, user⟩, frames_fill]
          exact less
        · next unmapped =>
          obtain ⟨⟨⟨⟩, k₃⟩, freed, rest⟩ := bind_eq_ok.mp rest
          rw [mappedFrame, if_neg fun both => unmapped both.1, add_zero] at more
          rw [setkilled_frames rest, kfree_kernel_frames freed, more, frames_fill]
          exact less

/-- A load or a store that finds its page, or faults at the start of one. -/
theorem access_frames {addr : Nat} {store : Option UInt8} (placed : (k.proc pid).vma.Placed)
    (aligned : addr % PGSIZE = 0 ∨ ∃ pte, (k.proc pid).pagetable.leaf (addr / PGSIZE) = some pte ∧
      pte.permits store.isSome = true)
    (run : access layer pid addr store k = .ok ((), k')) : k'.frames = k.frames := by
  have faults : (∀ pte, (k.proc pid).pagetable.leaf (addr / PGSIZE) = some pte →
      pte.permits store.isSome ≠ true) → pageFault layer pid addr k = .ok ((), k') →
      k'.frames = k.frames := by
    intro denied fault
    rcases aligned with aligned | ⟨pte, present, permits⟩
    · exact pageFault_frames placed aligned fault
    · exact absurd permits (denied pte present)
  unfold access at run
  split at run
  · next absent => exact faults (fun pte present => by rw [absent] at present; cases present) run
  · next pte present =>
    split at run
    · split at run <;> cases run
      · rfl
      · exact frames_congr rfl fun _ => rfl
    · next denied =>
      refine faults (fun pte' present' => ?_) run
      cases present.symm.trans present'
      exact denied

/-! ### Slots of the process table -/

/-- A freed slot has no frames. -/
theorem freed_frames (p : Proc Ip) : p.freed.frames = 0 :=
  (zero_add _).trans null_frames

/-- An unused slot has no frames. -/
def Kernel.Vacant (k : Kernel Ip σ) : Prop := ∀ q, (k.proc q).state = .unused → (k.proc q).frames = 0

theorem PageTable.frames_of_empty {table : PageTable} (empty : table.pages = []) : table.frames = 0 := by
  have none : userFrames table.leaf = 0 := userFrames_zero fun vpn _ => by
    by_contra present
    obtain ⟨page, member, -⟩ := (table.rooted vpn present).1
    rw [empty] at member
    cases member
  rw [PageTable.frames, empty, none]
  rfl

/-- `freeproc` gives back the trapframe and the page table. -/
theorem freeproc_frames (sized : (k.proc pid).sz ≤ TRAPFRAME) (run : freeproc pid k = .ok ((), k')) :
    k'.frames = k.frames := by
  obtain ⟨⟨⟨⟩, k₁⟩, first, rest⟩ := bind_eq_ok.mp run
  obtain ⟨⟨⟨⟩, k₂⟩, second, rest⟩ := bind_eq_ok.mp rest
  rw [modifyProc_ends] at rest
  subst rest
  have trapframe : k₁.frames = k.frames + ((k.proc pid).trapframe.elim 0 fun frame => {frame}) ∧
      k₁.proc pid = k.proc pid := by
    cases held : (k.proc pid).trapframe with
    | none =>
      rw [held] at first
      cases first
      exact ⟨(add_zero _).symm, rfl⟩
    | some frame =>
      rw [held] at first
      refine ⟨kfree_kernel_frames first, ?_⟩
      obtain ⟨s, ends, rfl⟩ := inSpace_ends.mp first
      cases ends
      rw [Kernel.setSpace_proc, Function.update_self]
      rfl
  have pagetable : k₂.frames = k₁.frames ∧ (k₂.proc pid).pagetable.frames = 0 ∧
      (k₂.proc pid).trapframe = (k.proc pid).trapframe := by
    split at second
    · next empty =>
      cases second
      rw [trapframe.2]
      exact ⟨rfl, PageTable.frames_of_empty empty, rfl⟩
    · refine ⟨inSpace_keeps second fun s ends => (proc_freepagetable_frames sized ends).1, ?_⟩
      obtain ⟨s, ends, rfl⟩ := inSpace_ends.mp second
      rw [Kernel.setSpace_proc, Function.update_self, Proc.setTable_pagetable,
        (proc_freepagetable_frames sized ends).2, Proc.setTable_trapframe, trapframe.2]
      exact ⟨null_frames, rfl⟩
  have less : (k₂.setProc pid (k₂.proc pid).freed).frames +
      ((k.proc pid).trapframe.elim 0 fun frame => {frame}) = k₂.frames + 0 :=
    frames_of_update _ _ rfl <| by
      rw [freed_frames, add_zero, add_zero, Kernel.setProc_ram, Proc.frames, pagetable.2.1,
        pagetable.2.2, add_zero]
  rw [add_zero, pagetable.1, trapframe.1] at less
  exact add_right_cancel less

/-- `allocproc` takes a trapframe and a page table from the free list, or fails and gives them back. -/
theorem allocproc_frames {found : Option Pid} (vacant : k.Vacant)
    (sized : ∀ q, (k.proc q).sz ≤ TRAPFRAME) (run : allocproc k = .ok (found, k')) :
    k'.frames = k.frames := by
  rw [allocproc] at run
  split at run
  · cases run
    rfl
  · next np slot =>
    obtain ⟨np', here, -⟩ := searchFin_eq_some_iff.mp slot
    rw [Option.ite_none_right_eq_some, Option.some.injEq] at here
    obtain ⟨unused, rfl⟩ := here
    obtain ⟨⟨trapframe, k₁⟩, allocated, rest⟩ := bind_eq_ok.mp run
    have less := inSpace_frames (trapframe.elim 0 fun frame => {frame}) 0 allocated
      fun s ends => (kalloc_frames ends).2.trans (add_zero _).symm
    rw [add_zero] at less
    have slot : k₁.proc np' = k.proc np' := by
      obtain ⟨s, ends, rfl⟩ := inSpace_ends.mp allocated
      rw [Kernel.setSpace_proc, Function.update_self, (kalloc_frames ends).1]
      rfl
    cases trapframe with
    | none =>
      obtain ⟨⟨⟨⟩, k₂⟩, freed, rest⟩ := bind_eq_ok.mp rest
      cases rest
      rw [freeproc_frames (slot ▸ sized np') freed]
      exact (add_zero _).symm.trans less
    | some frame =>
      obtain ⟨⟨⟨⟩, k₂⟩, held, rest⟩ := bind_eq_ok.mp rest
      rw [modifyProc_ends] at held
      have empty := vacant np' unused
      have nothing : (k.proc np').pagetable.frames = 0 :=
        Multiset.le_zero.mp ((Multiset.le_add_left _ _).trans_eq empty)
      have more : k₂.frames + 0 = k₁.frames + {frame} :=
        frames_of_update _ _ (congrArg Kernel.proc held) <| by
          rw [slot, empty, held, Proc.frames, nothing]
          simp only [add_zero]
          rfl
      rw [add_zero] at more
      obtain ⟨⟨made, k₃⟩, table, rest⟩ := bind_eq_ok.mp rest
      have space : (k₂.space np').table.frames = 0 := by
        rw [held, Kernel.space, Kernel.setProc_proc, Function.update_self, slot]
        exact nothing
      have same := inSpace_keeps table fun s ends => proc_pagetable_frames space ends
      have total : k₃.frames = k.frames := by
        rw [same, more]
        exact less
      dsimp only at rest
      split at rest
      · cases rest
        exact total
      · obtain ⟨⟨⟨⟩, k₄⟩, freed, rest⟩ := bind_eq_ok.mp rest
        cases rest
        have size : (k₃.proc np').sz ≤ TRAPFRAME := by
          obtain ⟨s, -, rfl⟩ := inSpace_ends.mp table
          rw [held, Kernel.setSpace_proc, Function.update_self, Proc.setTable_sz, Kernel.setProc_proc,
            Function.update_self, slot]
          exact sized np'
        rw [freeproc_frames size freed, total]

/-- `fork` copies the heap to pages of the free list. -/
theorem fork_frames {r : Int} (vacant : k.Vacant) (sized : ∀ q, (k.proc q).sz ≤ TRAPFRAME)
    (running : (k.proc pid).state = .runnable) (run : fork layer pid k = .ok (r, k')) :
    k'.frames = k.frames := by
  obtain ⟨found, k₁, allocated, rest⟩ := bind_ends.mp run
  have kept := allocproc_frames vacant sized allocated
  cases found with
  | none =>
    cases rest
    exact kept
  | some np =>
    have sizes : (k₁.proc pid).sz ≤ TRAPFRAME ∧ (k₁.proc np).sz ≤ TRAPFRAME ∧ np ≠ pid := by
      rcases allocproc_ends allocated with ⟨none, -⟩ | ⟨np', frame, table, ram, is, unused, rfl⟩
      · cases none
      · cases is
        have other : np ≠ pid := by
          rintro rfl
          rw [running] at unused
          cases unused
        refine ⟨?_, ?_, other⟩
        · rw [Kernel.setProc_proc, Function.update_of_ne other.symm]
          exact sized pid
        · rw [Kernel.setProc_proc, Function.update_self]
          exact sized np
    obtain ⟨copied, k₂, copy, rest⟩ := bind_ends.mp rest
    have same := inSpace_keeps copy fun s ends => uvmcopy_frames sizes.1 ends
    split at rest
    · obtain ⟨⟨⟩, k₃, sized', rest⟩ := bind_ends.mp rest
      obtain ⟨⟨⟩, k₄, files, rest⟩ := bind_ends.mp rest
      obtain ⟨ofile, procs, ram, -⟩ := forkFiles_ends () k₄ files
      obtain ⟨⟨⟩, k₅, cwd, rest⟩ := bind_ends.mp rest
      obtain ⟨⟨⟩, k₆, vmas, rest⟩ := bind_ends.mp rest
      obtain ⟨procs', ram', -⟩ := forkVmas_ends sizes.2.2 () k₆ vmas
      obtain ⟨⟨⟩, k₇, started, rest⟩ := bind_ends.mp rest
      cases rest
      rw [modifyProc_frames rfl started, frames_of_proc procs' (congrArg Ram.free ram') rfl,
        modifyProc_frames rfl cwd]
      rw [frames_fs, frames_of_proc procs (congrArg Ram.free ram) rfl, modifyProc_frames rfl sized',
        same, kept]
    · obtain ⟨⟨⟩, k₃, freed, rest⟩ := bind_ends.mp rest
      cases rest
      have size : (k₂.proc np).sz ≤ TRAPFRAME := by
        obtain ⟨s, -, rfl⟩ := inSpace_ends.mp copy
        rw [Kernel.setSpace_proc, Function.update_self]
        exact sizes.2.1
      rw [freeproc_frames size freed, same, kept]

/-! ### Pages of shared regions -/

/-- The first region at an address is shared. -/
def VmaTable.sharedAt (table : VmaTable) (addr : Nat) : Bool :=
  (VmaTable.find table addr).any fun i => (table i).isShared

/-- The pages that an action unmaps, when they are mapped, as pages of a shared region. -/
def Kernel.unshares (k : Kernel Ip σ) (label : Label) (vpn : Nat) : Bool :=
  match label.action with
  | .munmap addr length => (k.proc label.pid).vma.sharedAt addr.toNat &&
      decide (vpn ∈ pagesBetween (munmapRange addr.toNat length).1 (munmapRange addr.toNat length).2)
  | .exit => (k.proc label.pid).vma.sharedAt (vpn * PGSIZE)
  | _ => false

/-- The frames of the pages of shared regions that an action unmaps. -/
def Kernel.lost (k : Kernel Ip σ) (label : Label) (k' : Kernel Ip σ) : Multiset Nat :=
  ∑ vpn ∈ userPages, if k.unshares label vpn then
    frameOf ((k.proc label.pid).pagetable.leaf vpn) - frameOf ((k'.proc label.pid).pagetable.leaf vpn)
  else 0

/-- An action that unmaps no shared page loses nothing. -/
theorem lost_of_unshares {label : Label} (none : ∀ vpn, k.unshares label vpn = false) :
    k.lost label k' = 0 :=
  Finset.sum_eq_zero fun vpn _ => by rw [none vpn, if_neg Bool.false_ne_true]

theorem lost_of_leaf {label : Label} (same : (k'.proc label.pid).pagetable =
    (k.proc label.pid).pagetable) : k.lost label k' = 0 :=
  Finset.sum_eq_zero fun vpn _ => by rw [same, tsub_self, ite_self]

theorem sum_userPages {pages : List Nat} (user : ∀ vpn ∈ pages, vpn ∈ userPages) (f : Nat → Multiset Nat) :
    ∑ vpn ∈ userPages, (if vpn ∈ pages then f vpn else 0) = ∑ vpn ∈ pages.toFinset, f vpn := by
  have inside : userPages ∩ pages.toFinset = pages.toFinset :=
    Finset.inter_eq_right.mpr fun vpn member => user vpn (List.mem_toFinset.mp member)
  rw [← inside, ← Finset.sum_ite_mem]
  exact Finset.sum_congr rfl fun vpn _ => by simp only [List.mem_toFinset]

/-- `sys_munmap` loses the resident pages of a shared region. -/
theorem sys_munmap_frames {addr : UInt64} {length : Int32} {r : Int}
    (placed : (k.proc pid).vma.Placed)
    (low : VmaTable.find (k.proc pid).vma addr.toNat ≠ none →
      (munmapRange addr.toNat length).2 ≤ TRAPFRAME)
    (run : sys_munmap layer pid addr.toNat length k = .ok (r, k')) :
    k'.frames + k.lost ⟨pid, .munmap addr length⟩ k' = k.frames := by
  rcases sys_munmap_ends run with ⟨-, absent, rfl⟩ | ⟨-, fs, written, rfl, -⟩ |
    ⟨-, i, fs, written, s, found, unmaps⟩
  · rw [lost_of_leaf rfl, add_zero]
  · rw [lost_of_leaf (by rfl), add_zero]
    exact frames_congr rfl fun _ => rfl
  · obtain ⟨aligned, aligned', small, small', -, -⟩ := munmapRange_facts length placed found
    have stop := munmap_stop small small' aligned aligned'
    have below := low (by rw [found]; exact Option.some_ne_none i)
    have less := uvmunmap_frames (stop.trans_le below) unmaps.unmaps
    have leaf := fun vpn => uvmunmap_leaf unmaps.unmaps vpn
    rw [stop] at less leaf
    obtain ⟨procs, ram, -⟩ := unmaps.proc
    have table : (k'.proc pid).pagetable = s.table := by
      rw [procs, Function.update_self, Proc.setVma_pagetable, Proc.setTable_pagetable]
    have lost : k.lost ⟨pid, .munmap addr length⟩ k' = if (!((k.proc pid).vma i).isShared) then 0 else
        ∑ vpn ∈ (pagesBetween (munmapRange addr.toNat length).1
          (munmapRange addr.toNat length).2).toFinset, frameOf ((k.proc pid).pagetable.leaf vpn) := by
      cases shared : ((k.proc pid).vma i).isShared with
      | false =>
        refine lost_of_unshares fun vpn => ?_
        simp only [Kernel.unshares, VmaTable.sharedAt, found, Option.any_some, shared,
          Bool.false_and]
      | true =>
        rw [Bool.not_true, if_neg Bool.false_ne_true, ← sum_userPages fun vpn => user_of_le below]
        refine Finset.sum_congr rfl fun vpn _ => ?_
        simp only [Kernel.unshares, VmaTable.sharedAt, found, Option.any_some, shared, Bool.true_and,
          decide_eq_true_eq, table]
        split
        · next member => rw [leaf, if_pos member, frameOf, tsub_zero]
        · rfl
    rw [lost, ← add_zero k.frames]
    refine frames_of_update _ _ procs ?_
    rw [ram]
    exact space_frames (less.trans (add_zero _).symm) rfl rfl

/-! ### `exit` -/

/-- The first of some slots whose region contains a page. -/
def VmaTable.findIn (table : VmaTable) (slots : List (Fin VMASIZE)) (vpn : Nat) : Option (Fin VMASIZE) :=
  slots.find? fun i => (table i).contains (vpn * PGSIZE)

/-- The first region among all slots is the one that the lookup finds. -/
theorem VmaTable.findIn_all (table : VmaTable) (vpn : Nat) :
    table.findIn (List.finRange VMASIZE) vpn = VmaTable.find table (vpn * PGSIZE) := by
  cases found : VmaTable.find table (vpn * PGSIZE) with
  | none =>
    refine List.find?_eq_none.mpr fun i _ => ?_
    rw [VmaTable.find_eq_none_iff.mp found i]
    exact Bool.false_ne_true
  | some i =>
    obtain ⟨contains, before⟩ := VmaTable.find_eq_some_iff.mp found
    refine List.find?_eq_some_iff_getElem.mpr ⟨contains, i.val, by simp, by simp, fun j earlier => ?_⟩
    have inside : j < VMASIZE := Nat.lt_trans earlier i.isLt
    simpa using before ⟨j, inside⟩ earlier

theorem Vma.Placed.contains_page {v : Vma} {slot vpn : Nat} (placed : v.Placed slot) :
    v.contains (vpn * PGSIZE) = true ↔ v.used = true ∧ vpn ∈ v.vpns := by
  have aligned := placed.aligned
  have pages := placed.pages
  rw [placed.contains_iff, Vma.vpns, mem_pagesBetween]
  refine and_congr_right fun _ => ?_
  change v.addr ≤ vpn * PGSIZE ∧ vpn * PGSIZE < v.addr + v.size ↔ _
  unfold PGSIZE at *
  omega

theorem Vma.Placed.user {v : Vma} {slot vpn : Nat} (placed : v.Placed slot) (member : vpn ∈ v.vpns) :
    vpn ∈ userPages :=
  user_of_le placed.top member

@[simp] theorem frameOf_none : frameOf none = 0 := rfl

/-- The entries after a range was unmapped. -/
theorem unmapPages_leaf {do_free : Bool} {pages : List Nat} {s : Space} :
    Ensures (pages.forM (unmapPage do_free)) s fun _ s' => ∀ vpn, s'.table.leaf vpn =
      if vpn ∈ pages then none else s.table.leaf vpn := by
  induction pages generalizing s with
  | nil => exact .pure fun vpn => (if_neg List.not_mem_nil).symm
  | cons page rest ih =>
    rintro ⟨⟩ s' run vpn
    obtain ⟨⟨⟩, s₁, first, later⟩ := bind_ends.mp run
    rw [ih () s' later vpn, unmapPage_leaf first]
    by_cases same : vpn = page
    · rw [same, Function.update_self, ite_self, if_pos List.mem_cons_self]
    · rw [Function.update_of_ne same]
      simp only [List.mem_cons, same, false_or]

/-- One turn of the loop of `exit` over the regions. -/
theorem exitVma_frames {i : Fin VMASIZE} (placed : (k.proc pid).vma.Placed)
    (run : exitVma layer pid i k = .ok ((), k')) :
    (∀ vpn, (k'.proc pid).pagetable.leaf vpn =
      if ((k.proc pid).vma i).contains (vpn * PGSIZE) then none
      else (k.proc pid).pagetable.leaf vpn) ∧
    k'.frames + (∑ vpn ∈ userPages, if ((k.proc pid).vma i).contains (vpn * PGSIZE) &&
        ((k.proc pid).vma i).isShared then frameOf ((k.proc pid).pagetable.leaf vpn) else 0) =
      k.frames := by
  unfold exitVma at run
  dsimp only at run
  split at run
  · next used =>
    have here := placed i used
    obtain ⟨⟨⟨⟩, k₁⟩, unmapped, closed⟩ := bind_eq_ok.mp run
    rw [here.unmap] at unmapped
    have less := inSpace_frames (if (!((k.proc pid).vma i).isShared) then 0 else
      ∑ vpn ∈ ((k.proc pid).vma i).vpns.toFinset, frameOf ((k.proc pid).pagetable.leaf vpn)) 0 unmapped
      fun s ends => (unmapPages_frames _ (nodup_pagesBetween _ _) (fun vpn => here.user) () s ends).trans
        (add_zero _).symm
    obtain ⟨s, ends, rfl⟩ := inSpace_ends.mp unmapped
    have page : ∀ vpn, ((k.proc pid).vma i).contains (vpn * PGSIZE) =
        decide (vpn ∈ ((k.proc pid).vma i).vpns) := fun vpn => by
      rw [Bool.eq_iff_iff, here.contains_page, decide_eq_true_iff, and_iff_right used]
    refine ⟨fun vpn => ?_, ?_⟩
    · obtain ⟨-, file, fs, rfl, -⟩ := closeVma_ends closed
      simp only [Kernel.setProc_proc, Function.update_self, Proc.setVma_pagetable,
        Kernel.setSpace_proc, Proc.setTable_pagetable, page, decide_eq_true_eq]
      exact unmapPages_leaf () s ends vpn
    · rw [closeVma_frames closed, ← add_zero k.frames, ← less]
      refine congrArg _ ?_
      cases ((k.proc pid).vma i).isShared with
      | false => simp only [Bool.and_false, Bool.false_eq_true, if_false, Finset.sum_const_zero,
          Bool.not_false, if_true]
      | true =>
        rw [Bool.not_true, if_neg Bool.false_ne_true, ← sum_userPages fun vpn => here.user]
        simp only [page, Bool.and_true, decide_eq_true_eq]
  · next unused =>
    cases run
    have outside : ∀ vpn, ((k.proc pid).vma i).contains (vpn * PGSIZE) = false := fun vpn => by
      rw [Vma.contains, Bool.eq_false_iff.mpr unused, Bool.false_and, Bool.false_and]
    refine ⟨fun vpn => by rw [outside, if_neg Bool.false_ne_true], ?_⟩
    rw [Finset.sum_eq_zero fun vpn _ => by rw [outside, Bool.false_and, if_neg Bool.false_ne_true],
      add_zero]

theorem VmaTable.findIn_append (table : VmaTable) (slots : List (Fin VMASIZE)) (i : Fin VMASIZE)
    (vpn : Nat) : table.findIn (slots ++ [i]) vpn = (table.findIn slots vpn).or
      (if (table i).contains (vpn * PGSIZE) then some i else none) := by
  rw [VmaTable.findIn, List.find?_append, VmaTable.findIn, List.find?_singleton]

theorem VmaTable.Placed.freeSlots {table : VmaTable} (placed : table.Placed)
    (slots : List (Fin VMASIZE)) : (Mmap.freeSlots table slots).Placed := by
  intro i used
  unfold Mmap.freeSlots at used ⊢
  split at used
  · cases used
  · next outside =>
    rw [if_neg outside]
    exact placed i used

/-- The regions at an `exit`, in the order of their slots: a page goes with the first that contains it.
-/
theorem exitVmas_frames (placed : (k.proc pid).vma.Placed) (slots : List (Fin VMASIZE))
    (distinct : slots.Nodup) :
    Ensures (slots.forM (exitVma layer pid)) k fun _ k' =>
      (k'.proc pid).vma = freeSlots (k.proc pid).vma slots ∧
      (∀ vpn, (k'.proc pid).pagetable.leaf vpn = if ((k.proc pid).vma.findIn slots vpn).isSome then none
        else (k.proc pid).pagetable.leaf vpn) ∧
      k'.frames + (∑ vpn ∈ userPages, if ((k.proc pid).vma.findIn slots vpn).any
        (fun i => ((k.proc pid).vma i).isShared) then frameOf ((k.proc pid).pagetable.leaf vpn) else 0) =
          k.frames := by
  refine Ensures.forM (fun done (k' : Kernel Ip σ) =>
    (k'.proc pid).vma = freeSlots (k.proc pid).vma done ∧
    (∀ vpn, (k'.proc pid).pagetable.leaf vpn = if ((k.proc pid).vma.findIn done vpn).isSome then none
      else (k.proc pid).pagetable.leaf vpn) ∧
    k'.frames + (∑ vpn ∈ userPages, if ((k.proc pid).vma.findIn done vpn).any
      (fun i => ((k.proc pid).vma i).isShared) then frameOf ((k.proc pid).pagetable.leaf vpn) else 0) =
        k.frames) slots ⟨rfl, fun _ => rfl, ?_⟩ ?_
  · exact (congrArg _ (Finset.sum_const_zero)).trans (add_zero _)
  · rintro done i rest split k₁ ⟨table, leaf, frames⟩ ⟨⟩ k₂ run
    have later : i ∉ done := by
      rw [split, List.nodup_append] at distinct
      exact fun member => distinct.2.2 i member i List.mem_cons_self rfl
    have slot : (k₁.proc pid).vma i = (k.proc pid).vma i := by rw [table, freeSlots, if_neg later]
    obtain ⟨leaf', frames'⟩ := exitVma_frames (table ▸ placed.freeSlots done) run
    obtain ⟨_, procs⟩ := exitVma_ends run
    rw [slot] at leaf' frames'
    refine ⟨?_, fun vpn => ?_, ?_⟩
    · rw [procs, Function.update_self, Proc.setVma_vma, slot, table, freeSlots_append]
    · rw [leaf', leaf, VmaTable.findIn_append]
      cases (k.proc pid).vma.findIn done vpn with
      | some j => simp
      | none => cases ((k.proc pid).vma i).contains (vpn * PGSIZE) <;> simp
    · rw [← frames, ← frames', add_assoc, ← Finset.sum_add_distrib]
      refine congrArg _ (Finset.sum_congr rfl fun vpn _ => ?_)
      rw [leaf, VmaTable.findIn_append]
      cases (k.proc pid).vma.findIn done vpn with
      | some j => cases shared : ((k.proc pid).vma j).isShared <;> simp [shared]
      | none =>
        cases ((k.proc pid).vma i).contains (vpn * PGSIZE) <;> simp

/-- `exit` loses the resident pages of the shared regions that come first. -/
theorem exit_frames (placed : (k.proc pid).vma.Placed) (run : exit layer pid k = .ok ((), k')) :
    k'.frames + k.lost ⟨pid, .exit⟩ k' = k.frames := by
  rw [exit] at run
  split at run
  · cases run
  · obtain ⟨⟨⟩, k₁, files, rest⟩ := bind_ends.mp run
    obtain ⟨ofile, procs, ram, -⟩ := exitFiles_ends () k₁ files
    have start : (k₁.proc pid).vma = (k.proc pid).vma ∧
        (k₁.proc pid).pagetable = (k.proc pid).pagetable := by
      rw [procs, Function.update_self]
      exact ⟨rfl, rfl⟩
    obtain ⟨⟨⟩, k₂, vmas, rest⟩ := bind_ends.mp rest
    obtain ⟨-, leaf, frames⟩ := exitVmas_frames (start.1 ▸ placed) _ (List.nodup_finRange _) () k₂ vmas
    rw [start.1, start.2, frames_of_proc procs (congrArg Ram.free ram) rfl] at frames
    rw [start.1, start.2] at leaf
    have last : k'.frames = k₂.frames ∧ (k'.proc pid).pagetable = (k₂.proc pid).pagetable := by
      rw [modifyProc_ends] at rest
      subst rest
      refine ⟨frames_of_proc rfl rfl rfl, ?_⟩
      rw [Kernel.setProc_proc, Function.update_self]
    rw [last.1, ← frames]
    refine congrArg _ (Finset.sum_congr rfl fun vpn _ => ?_)
    simp only [Kernel.unshares, VmaTable.sharedAt, last.2, leaf, VmaTable.findIn_all]
    cases VmaTable.find (k.proc pid).vma (vpn * PGSIZE) with
    | none => rfl
    | some i => simp

/-! ### Actions and runs -/

/-- What the frames are followed over. -/
structure Kernel.Housed (k : Kernel Ip σ) : Prop where
  vacant : k.Vacant
  sized : ∀ q, (k.proc q).sz ≤ TRAPFRAME
  placed : k.Placed

/-- A `munmap` that finds a region ends below the trapframe, and a load or a store finds its page or
faults at the start of one. -/
def WithinRegions (k : Kernel Ip σ) (label : Label) : Prop :=
  match label.action with
  | .munmap addr length => VmaTable.find (k.proc label.pid).vma addr.toNat ≠ none →
      (munmapRange addr.toNat length).2 ≤ TRAPFRAME
  | .access addr store => addr.toNat % PGSIZE = 0 ∨ ∃ pte,
      (k.proc label.pid).pagetable.leaf (addr.toNat / PGSIZE) = some pte ∧
        pte.permits store.isSome = true
  | _ => True

/-- **One action** moves frames between the free list and the processes, but for the lost ones. -/
theorem step_frames {label : Label} (housed : k.Housed) (within : WithinRegions k label)
    (step : k.Step layer label k') : k'.frames + k.lost label k' = k.frames := by
  obtain ⟨enabled, r, run⟩ := step
  obtain ⟨pid, action⟩ := label
  have keeps : (∀ vpn, k.unshares ⟨pid, action⟩ vpn = false) → k'.frames = k.frames →
      k'.frames + k.lost ⟨pid, action⟩ k' = k.frames := fun none same => by
    rw [lost_of_unshares none, add_zero, same]
  cases action with
  | mmap args => exact keeps (fun _ => rfl) (sys_mmap_frames run)
  | munmap addr length => exact sys_munmap_frames (housed.placed.tables pid) within run
  | access addr store =>
    obtain ⟨⟨⟩, k₁, run, rest⟩ := bind_ends.mp run
    cases rest
    exact keeps (fun _ => rfl) (access_frames (housed.placed.tables pid) within run)
  | fork => exact keeps (fun _ => rfl) (fork_frames housed.vacant housed.sized enabled.1 run)
  | exit =>
    obtain ⟨⟨⟩, k₁, run, rest⟩ := bind_ends.mp run
    cases rest
    exact exit_frames (housed.placed.tables pid) run
  | reap =>
    obtain ⟨⟨⟩, k₁, run, rest⟩ := bind_ends.mp run
    cases rest
    exact keeps (fun _ => rfl) (freeproc_frames (housed.sized pid) run)

theorem step_vacant {label : Label} (vacant : k.Vacant) (step : k.Step layer label k') : k'.Vacant := by
  intro q unused
  obtain ⟨enabled, r, run⟩ := step
  obtain ⟨pid, action⟩ := label
  have of_update : ∀ {np : Pid} {p : Proc Ip}, k'.proc = Function.update k.proc np p →
      (p.state = .unused → p.frames = 0) → (k'.proc q).frames = 0 := by
    intro np p procs empty
    rw [procs] at unused ⊢
    by_cases same : q = np
    · rw [same, Function.update_self] at unused ⊢
      exact empty unused
    · rw [Function.update_of_ne same] at unused ⊢
      exact vacant q unused
  have running : ∀ {p : Proc Ip}, (k.proc pid).state = .runnable → p.state = (k.proc pid).state →
      p.state = .unused → p.frames = 0 := by
    intro p runs same idle
    rw [same, runs] at idle
    cases idle
  cases action with
  | mmap args =>
    rcases sys_mmap_ends run with ⟨-, rfl⟩ | ⟨f, slot, assigned, v, -, -, -, -, -, -, rfl⟩
    · exact vacant q unused
    · exact of_update rfl (running enabled.1 rfl)
  | munmap addr length =>
    rcases sys_munmap_ends run with ⟨-, -, rfl⟩ | ⟨-, fs, written, rfl, -⟩ |
      ⟨-, i, fs, written, s, -, unmaps⟩
    · exact vacant q unused
    · exact vacant q unused
    · exact of_update unmaps.proc.1 (running enabled.1 rfl)
  | access addr store =>
    obtain ⟨⟨⟩, k₁, run, rest⟩ := bind_ends.mp run
    cases rest
    obtain ⟨table, killed, ram, rfl⟩ := access_ends run
    exact of_update rfl (running enabled.1 rfl)
  | fork =>
    rcases fork_procs enabled.1 run with ⟨-, same⟩ |
      ⟨np, -, ⟨-, same⟩ | ⟨-, child, same, runs, -, -⟩⟩
    · rw [same] at unused ⊢
      exact vacant q unused
    · exact of_update same fun _ => freed_frames _
    · exact of_update same fun idle => by rw [runs] at idle; cases idle
  | exit =>
    obtain ⟨⟨⟩, k₁, run, rest⟩ := bind_ends.mp run
    cases rest
    obtain ⟨p, procs, zombie, -, -⟩ := exit_procs run
    exact of_update procs fun idle => by rw [zombie] at idle; cases idle
  | reap =>
    obtain ⟨⟨⟩, k₁, run, rest⟩ := bind_ends.mp run
    cases rest
    obtain ⟨ram, rfl⟩ := freeproc_ends run
    exact of_update rfl fun _ => freed_frames _

/-- Every action keeps unused slots empty, heaps below the trapframe and regions in their places. -/
theorem step_housed {label : Label} (housed : k.Housed) (step : k.Step layer label k') : k'.Housed where
  vacant := step_vacant housed.vacant step
  sized q := by
    cases step_procs step q with
    | loses loses => exact loses.sz.trans_le (housed.sized q)
    | maps args slot assigned v is_mmap place fresh length same => exact same ▸ housed.sized q
    | resets idle same => exact same ▸ Nat.zero_le _
    | forks parent unused running sz vma => exact sz.trans_le (housed.sized parent)
    | exits zombie sz gone => exact sz.trans_le (housed.sized q)
  placed := step_placed housed.placed step

/-- An action with the frames that it loses. -/
def Kernel.Accounts (layer : FileLayer Ip σ) (k : Kernel Ip σ) (entry : Label × Multiset Nat)
    (k' : Kernel Ip σ) : Prop :=
  (k.Step layer entry.1 k' ∧ WithinRegions k entry.1) ∧ entry.2 = k.lost entry.1 k'

/-- As long as the file layer keeps its own pages, the balance is exact. -/
theorem frames_balanced {start : Kernel Ip σ} {entries : List (Label × Multiset Nat)}
    (housed : start.Housed) (run : Run (Kernel.Accounts layer) start entries k) :
    k.frames + (entries.map Prod.snd).sum = start.frames := by
  induction run with
  | nil => exact add_zero _
  | @cons first middle last entry rest step _ ih =>
    have here := step_frames housed step.1.2 step.1.1
    rw [List.map_cons, List.sum_cons, step.2, ← here, ← ih (step_housed housed step.1.1),
      add_right_comm, add_assoc]

/-- Every run has entries. -/
theorem accounts_of_run {start : Kernel Ip σ} {labels : List Label}
    (run : Run (fun k label k' => k.Step layer label k' ∧ WithinRegions k label) start labels k) :
    ∃ entries, entries.map Prod.fst = labels ∧ Run (Kernel.Accounts layer) start entries k := by
  induction run with
  | nil s => exact ⟨[], rfl, .nil s⟩
  | @cons first middle last label labels step _ ih =>
    obtain ⟨entries, rfl, run⟩ := ih
    exact ⟨(label, first.lost label middle) :: entries, rfl, .cons ⟨step, rfl⟩ run⟩

theorem newSpace_frames : newSpace.frames = (List.range' 10 16 : List Nat) := by
  have ends : (match proc_pagetable 9 ⟨⟨List.range' 10 16, [], fun _ _ => 5⟩, .null⟩ with
      | .ok _ => true
      | .error _ => false) = true := by
    decide +kernel
  unfold newSpace
  split
  · next made s run =>
    rw [proc_pagetable_frames null_frames run, Space.frames, null_frames, add_zero]
  · next error run =>
    rw [run] at ends
    cases ends

theorem smallKernel_housed (type : FileType) (ip : Option Unit) : (smallKernel type ip).Housed := by
  have away : ∀ {q : Pid}, q ≠ firstPid → ((smallKernel type ip).proc q).frames = 0 := by
    intro q other
    simp only [smallKernel, other, if_false]
    exact (zero_add _).trans null_frames
  refine ⟨fun q unused => away ?_, fun q => ?_, (smallKernel_noRegions type ip).placed⟩
  · rintro rfl
    simp [smallKernel] at unused
  · simp only [smallKernel]
    split <;> exact Nat.zero_le _

theorem smallKernel_frames (type : FileType) (ip : Option Unit) :
    (smallKernel type ip).frames = {9} + (List.range' 10 16 : List Nat) := by
  have others : ∑ q ∈ Finset.univ.erase firstPid, ((smallKernel type ip).proc q).frames = 0 :=
    Finset.sum_eq_zero fun q member => by
      simp only [smallKernel, Finset.ne_of_mem_erase member, if_false]
      exact (zero_add _).trans null_frames
  have own : ((smallKernel type ip).proc firstPid).frames = {9} + newSpace.table.frames := by
    simp only [smallKernel, if_true]
    rfl
  rw [frames_split _ firstPid, others, own, ← newSpace_frames, add_zero, Space.frames]
  exact add_left_comm _ _ _

theorem smallKernel_distinct (type : FileType) (ip : Option Unit) :
    (smallKernel type ip).frames.Nodup := by
  rw [smallKernel_frames]
  decide

/-- Requests that stay within regions. -/
def staysWithin (_ : Kernel Ip σ) (label : Label) : Bool :=
  match label.action with
  | .munmap addr length => decide ((munmapRange addr.toNat length).2 ≤ TRAPFRAME)
  | .access addr _ => decide (addr.toNat % PGSIZE = 0)
  | _ => true

theorem withinRegions_of_stays (k : Kernel Ip σ) (label : Label) (stays : staysWithin k label = true) :
    WithinRegions k label := by
  unfold staysWithin at stays
  unfold WithinRegions
  split
  · next addr length is => exact fun _ => of_decide_eq_true (by simpa [is] using stays)
  · next addr store is => exact Or.inl (of_decide_eq_true (by simpa [is] using stays))
  · trivial

/-- A private and a shared page, a child, and an exit. -/
def pagesAndExit : List Label :=
  [mapPagesOf 4096 3 2, ⟨firstPid, .access topPage (some 7)⟩, mapPagesOf 4096 3 1,
    ⟨firstPid, .access (topPage - 8192) none⟩, ⟨firstPid, .fork⟩, ⟨firstPid, .munmap topPage 4096⟩,
    ⟨firstPid, .exit⟩]

theorem pagesAndExit_runs : ∃ k, Run (fun k label k' => k.Step oneFile label k' ∧ WithinRegions k label)
    (smallKernel .inode (some ())) pagesAndExit k := by
  have replayed : (replay oneFile staysWithin pagesAndExit (smallKernel .inode (some ()))).isSome := by
    decide +kernel
  obtain ⟨k, reached⟩ := Option.isSome_iff_exists.mp replayed
  exact ⟨k, run_of_replay WithinRegions withinRegions_of_stays reached⟩

/-- **No page has two places.** Where the frames are distinct they stay so: in every reachable state no
page is free and in use, mapped twice, or mapped and a part of a page table. -/
theorem frames_distinct {start : Kernel Ip σ} {labels : List Label} (housed : start.Housed)
    (distinct : start.frames.Nodup)
    (run : Run (fun k label k' => k.Step layer label k' ∧ WithinRegions k label) start labels k) :
    k.frames.Nodup := by
  have preserved : ∀ k label k', Kernel.Housed k ∧ k.frames.Nodup →
      k.Step layer label k' ∧ WithinRegions k label → k'.Housed ∧ k'.frames.Nodup := by
    intro k label k' here step
    refine ⟨step_housed here.1 step.1, ?_⟩
    have same := step_frames here.1 step.2 step.1
    rw [← same] at here
    exact (Multiset.nodup_add.mp here.2).1
  exact (run.invariant preserved ⟨housed, distinct⟩).2

theorem frames_distinct_small : ∃ k, Run (fun k label k' => k.Step oneFile label k' ∧
    WithinRegions k label) (smallKernel .inode (some ())) pagesAndExit k ∧ k.frames.Nodup := by
  obtain ⟨k, run⟩ := pagesAndExit_runs
  exact ⟨k, run, frames_distinct (smallKernel_housed _ _) (smallKernel_distinct _ _) run⟩

end Csc3150.Mmap
