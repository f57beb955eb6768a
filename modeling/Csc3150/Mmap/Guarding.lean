/-
**What the kernel leaves alone.**

`Kernel.Kept page` — the pages of memory are `page`, and no entry of a page table from the trapframe
on can be reached by a user. The functions of `vm.c` and of `proc.c` keep it, apart from `uvmcopy`,
which fills pages that were free.

* `mappages_kept`, `mappages_user_kept`, `uvmunmap_kept`, `proc_pagetable_kept`,
  `proc_freepagetable_kept` — one address space;
* `uvmcopy_confined` — the copy of an address space;
* `freeproc_kept`, `allocproc_kept`, `exit_kept` — processes.
-/

import Csc3150.Library.Keeping
import Csc3150.Mmap.Fork
import Csc3150.Mmap.Frames

namespace Csc3150.Mmap

open ByteBuffer Outcome Program Search

variable {Ip σ α : Type} {layer : FileLayer Ip σ} {k k' : Kernel Ip σ} {pid : Pid}

/-! ### Page tables -/

/-- A user can reach entries below the trapframe only. -/
def PageTable.Guarded (table : PageTable) : Prop :=
  ∀ vpn pte, table.leaf vpn = some pte → pte.u = true → vpn ∈ userPages

/-- The pages of memory are as given, and the page table is guarded. -/
def Space.Kept (page : Nat → Buffer) (s : Space) : Prop := s.ram.page = page ∧ s.table.Guarded

variable {page : Nat → Buffer} {s s' : Space}

theorem null_guarded : PageTable.null.Guarded := fun vpn pte present => by cases present

theorem PageTable.Guarded.of_leaf {table table' : PageTable} (guarded : table.Guarded)
    (same : table'.leaf = table.leaf) : table'.Guarded :=
  fun vpn pte present => guarded vpn pte (same ▸ present)

theorem kalloc_kept : Keeps (Space.Kept page) kalloc := by
  intro s here found s' run
  unfold kalloc at run
  split at run <;> cases run <;> exact here

theorem kfree_kept (frame : Nat) : Keeps (Space.Kept page) (kfree frame) := by
  intro s here a s' run
  cases run
  exact here

/-- A new entry for users lies below the trapframe. -/
theorem mapPage_guarded {vpn : Nat} {pte : Pte} {made : Bool} (guarded : s.table.Guarded)
    (user : pte.u = true → vpn ∈ userPages) (run : mapPage vpn pte s = .ok (made, s')) :
    s'.table.Guarded := by
  rcases mapPage_leaf run with same | update
  · exact guarded.of_leaf same
  · intro other entry present reachable
    rw [update] at present
    by_cases same : other = vpn
    · rw [same, Function.update_self] at present
      cases present
      exact same ▸ user reachable
    · rw [Function.update_of_ne same] at present
      exact guarded other entry present reachable

theorem mapPage_kept {vpn : Nat} {pte : Pte} (user : pte.u = true → vpn ∈ userPages) :
    Keeps (Space.Kept page) (mapPage vpn pte) :=
  fun _ here _ _ run => ⟨(mapPage_page run).trans here.1, mapPage_guarded here.2 user run⟩

/-- The loop of `mappages`, entry by entry. -/
theorem mapPages_kept {vpn count : Nat} {pte : Pte}
    (user : pte.u = true → ∀ i < count, vpn + i ∈ userPages) :
    Keeps (Space.Kept page) (mapPages vpn pte count) := by
  induction count generalizing vpn pte with
  | zero => exact .pure true
  | succ count ih =>
    refine .bind (mapPage_kept fun reachable => user reachable 0 (Nat.succ_pos _)) fun made => ?_
    refine .ite (ih fun reachable i inside => ?_) (.pure false)
    rw [Nat.add_right_comm]
    exact user reachable (i + 1) (Nat.succ_lt_succ inside)

/-- Entries that no user can reach. -/
theorem mappages_kept {va size : Nat} {pte : Pte} (kernel : pte.u = false) :
    Keeps (Space.Kept page) (mappages va size pte) :=
  mapPages_kept fun reachable => absurd (kernel.symm.trans reachable) Bool.false_ne_true

/-- One page below the trapframe. -/
theorem mappages_user_kept {va : Nat} (pte : Pte) (low : va < TRAPFRAME)
    (aligned : va % PGSIZE = 0) : Keeps (Space.Kept page) (mappages va PGSIZE pte) := by
  rw [mappages_eq low, if_pos aligned]
  refine mapPages_kept fun _ i inside => ?_
  obtain rfl := Nat.lt_one_iff.mp inside
  rw [Nat.add_zero, mem_userPages]
  unfold TRAPFRAME TRAMPOLINE MAXVA PGSIZE at *
  omega

/-- Unmapping makes no entry and fills no page. -/
theorem unmapPage_kept (do_free : Bool) (vpn : Nat) :
    Keeps (Space.Kept page) (unmapPage do_free vpn) := by
  intro s here a s' run
  have leaf := unmapPage_leaf run
  obtain ⟨-, rfl⟩ := unmapPage_iff.mp run
  refine ⟨?_, fun other pte present => ?_⟩
  · rw [← here.1]
    unfold Space.unmapped
    split
    · rfl
    · cases do_free <;> rfl
  · by_cases same : other = vpn
    · rw [leaf, same, Function.update_self] at present
      cases present
    · rw [leaf, Function.update_of_ne same] at present
      exact here.2 other pte present

theorem uvmunmap_kept (va npages : Nat) (do_free : Bool) :
    Keeps (Space.Kept page) (uvmunmap va npages do_free) :=
  .ite (.throw _) (.forM fun vpn _ => unmapPage_kept do_free vpn)

/-- Freeing the pages of a table leaves the contents of memory alone. -/
theorem kfree_pages_page (pages : List TablePage) (ram : Ram) :
    (pages.foldl (fun ram page => ram.kfree page.frame) ram).page = ram.page := by
  induction pages generalizing ram with
  | nil => rfl
  | cons page rest ih => exact ih _

theorem freewalk_kept : Keeps (Space.Kept page) freewalk := by
  intro s here a s' run
  unfold freewalk at run
  split at run <;> cases run
  exact ⟨(kfree_pages_page _ _).trans here.1, null_guarded⟩

theorem uvmfree_kept (sz : Nat) : Keeps (Space.Kept page) (uvmfree sz) := by
  unfold uvmfree
  split
  · exact .bind (uvmunmap_kept _ _ _) fun _ => freewalk_kept
  · exact freewalk_kept

/-- `freewalk` leaves the empty table, which is guarded. -/
theorem proc_freepagetable_kept (sz : Nat) : Keeps (Space.Kept page) (proc_freepagetable sz) :=
  .bind (uvmunmap_kept _ _ _) fun _ => .bind (uvmunmap_kept _ _ _) fun _ => uvmfree_kept sz

/-- The entries of a new table, at the trapframe and the trampoline, are the kernel's. -/
theorem proc_pagetable_kept (trapframe : Nat) :
    Keeps (Space.Kept page) (proc_pagetable trapframe) := by
  refine .bind kalloc_kept fun root => ?_
  cases root with
  | none => exact .pure false
  | some root =>
    refine .bind (fun s here a s' run => ?_) fun _ => .bind (mappages_kept rfl) fun first => ?_
    · cases run
      exact ⟨here.1, null_guarded⟩
    · refine .ite (.bind (mappages_kept rfl) fun second => .ite (.pure true) ?_) ?_
      · exact .bind (uvmunmap_kept _ _ _) fun _ => .bind (uvmfree_kept 0) fun _ => .pure false
      · exact .bind (uvmfree_kept 0) fun _ => .pure false

/-! ### Copies of memory -/

/-- Only pages that were free are filled, or none if all frames are taken into account. -/
theorem copyPages_confined {old : PageTable} {pages : List Nat} {failed : Option Nat}
    (user : ∀ vpn ∈ pages, vpn ∈ userPages) (guarded : s.table.Guarded)
    (run : copyPages old pages s = .ok (failed, s')) :
    s'.table.Guarded ∧ ∀ frame ∉ s.frames, s'.ram.page frame = s.ram.page frame := by
  induction pages generalizing s with
  | nil =>
    cases run
    exact ⟨guarded, fun _ _ => rfl⟩
  | cons vpn rest ih =>
    have here := user vpn List.mem_cons_self
    have later := fun {s₁} => @ih s₁ fun vpn member => user vpn (List.mem_cons_of_mem _ member)
    have low := mem_userPages.mp here
    have aligned : vpn * PGSIZE % PGSIZE = 0 := Nat.mul_mod_left _ _
    have below : vpn * PGSIZE < TRAPFRAME := by
      unfold TRAPFRAME TRAMPOLINE MAXVA PGSIZE at *
      omega
    have small : vpn * PGSIZE + PGSIZE ≤ 2 ^ 64 := by
      unfold TRAPFRAME TRAMPOLINE MAXVA PGSIZE at *
      omega
    unfold copyPages at run
    split at run
    · cases run
    generalize old.leaf vpn = entry at run
    cases entry with
    | none => exact later guarded run
    | some pte =>
      obtain ⟨mem, s₁, allocated, run⟩ := bind_ends.mp run
      obtain ⟨same, less⟩ := kalloc_frames allocated
      have taken := kalloc_kept s ⟨rfl, guarded⟩ mem s₁ allocated
      cases mem with
      | none =>
        cases run
        exact ⟨taken.2, fun frame _ => congrFun taken.1 frame⟩
      | some mem =>
        rw [Option.elim_some] at less
        obtain ⟨⟨⟩, s₂, filled, run⟩ := bind_ends.mp run
        cases filled
        obtain ⟨mapped, s₃, first, run⟩ := bind_ends.mp run
        have more := mappages_frames aligned small first
        rw [Nat.mul_div_cancel _ PGSIZE_pos] at more
        have kept := mappages_user_kept { pte with frame := mem } below aligned
          ⟨s₁.ram.fill mem (s₁.ram.page pte.frame), s₁.table⟩ ⟨rfl, taken.2⟩ mapped s₃ first
        have outside : ∀ frame ∉ s.frames, s₃.ram.page frame = s.ram.page frame := by
          intro frame away
          have other : frame ≠ mem := by
            rintro rfl
            refine away ?_
            rw [← less]
            exact Multiset.mem_add.mpr (Or.inr (Multiset.mem_singleton_self _))
          rw [kept.1]
          exact (Function.update_of_ne other _ _).trans (congrFun taken.1 frame)
        split at run
        · next is_mapped =>
          rw [mappedFrame, if_pos ⟨is_mapped, here⟩] at more
          obtain ⟨guarded', rest⟩ := later kept.2 run
          refine ⟨guarded', fun frame away => (rest frame ?_).trans (outside frame away)⟩
          rw [more]
          exact fun member => away (less ▸ member)
        · obtain ⟨⟨⟩, s₄, freed, run⟩ := bind_ends.mp run
          cases freed
          cases run
          exact ⟨kept.2, outside⟩

/-- `uvmcopy` takes its copies from the free list, and removes them again when memory runs out. -/
theorem uvmcopy_confined {old : PageTable} {sz : Nat} {copied : Bool} (sized : sz ≤ TRAPFRAME)
    (guarded : s.table.Guarded) (run : uvmcopy old sz s = .ok (copied, s')) :
    s'.table.Guarded ∧ ∀ frame ∉ s.frames, s'.ram.page frame = s.ram.page frame := by
  obtain ⟨failed, s₁, pages, rest⟩ := bind_ends.mp run
  obtain ⟨guarded', outside⟩ :=
    copyPages_confined (fun vpn => user_of_le (PGROUNDUP_le sized)) guarded pages
  cases failed with
  | none =>
    cases rest
    exact ⟨guarded', outside⟩
  | some vpn =>
    obtain ⟨⟨⟩, s₂, unmapped, rest⟩ := bind_ends.mp rest
    cases rest
    have kept := uvmunmap_kept _ _ _ s₁ ⟨rfl, guarded'⟩ () s' unmapped
    exact ⟨kept.2, fun frame away => (congrFun kept.1 frame).trans (outside frame away)⟩

/-! ### Processes -/

/-- The page tables of all processes are guarded. -/
def Kernel.Guarded (k : Kernel Ip σ) : Prop := ∀ q, (k.proc q).pagetable.Guarded

/-- The pages of memory are as given, and the page tables are guarded. -/
def Kernel.Kept (page : Nat → Buffer) (k : Kernel Ip σ) : Prop := k.ram.page = page ∧ k.Guarded

/-- Only one page table was replaced. -/
theorem guarded_of_update {p : Proc Ip} (guarded : k.Guarded)
    (procs : k'.proc = Function.update k.proc pid p) (own : p.pagetable.Guarded) : k'.Guarded := by
  intro q
  rw [procs]
  by_cases same : q = pid
  · rw [same, Function.update_self]
    exact own
  · rw [Function.update_of_ne same]
    exact guarded q

/-- What keeps a space keeps the kernel around it. -/
theorem inSpace_kept {x : VmProg α} (keeps : Keeps (Space.Kept page) x) :
    Keeps (Kernel.Kept page) (inSpace pid x : KProg Ip σ α) := by
  intro k here a k' run
  obtain ⟨s, ends, rfl⟩ := inSpace_ends.mp run
  have kept := keeps (k.space pid) ⟨here.1, here.2 pid⟩ a s ends
  exact ⟨kept.1, guarded_of_update here.2 rfl kept.2⟩

theorem modifyProc_kept {change : Proc Ip → Proc Ip} (run : modifyProc pid change k = .ok ((), k'))
    (here : k.Kept page) (own : (change (k.proc pid)).pagetable.Guarded) : k'.Kept page := by
  rw [modifyProc_ends.mp run]
  exact ⟨here.1, guarded_of_update here.2 rfl own⟩

theorem setkilled_kept : Keeps (Kernel.Kept page) (setkilled pid : KProg Ip σ Unit) :=
  fun _ here _ _ run => modifyProc_kept run here (here.2 pid)

/-- `freeproc` fills no page. -/
theorem freeproc_kept : Keeps (Kernel.Kept page) (freeproc pid : KProg Ip σ Unit) := by
  intro k here a k' run
  obtain ⟨⟨⟨⟩, k₁⟩, first, rest⟩ := bind_eq_ok.mp run
  obtain ⟨⟨⟨⟩, k₂⟩, second, rest⟩ := bind_eq_ok.mp rest
  have trapframe : Kernel.Kept page k₁ := by
    split at first
    · exact inSpace_kept (kfree_kept _) k here () k₁ first
    · cases first
      exact here
  have pagetable : Kernel.Kept page k₂ := by
    split at second
    · cases second
      exact trapframe
    · exact inSpace_kept (proc_freepagetable_kept _) k₁ trapframe () k₂ second
  exact modifyProc_kept rest pagetable null_guarded

/-- `allocproc` makes a guarded table, or gives back what it took. -/
theorem allocproc_kept : Keeps (Kernel.Kept page) (allocproc : KProg Ip σ (Option Pid)) := by
  intro k here found k' run
  rw [allocproc] at run
  split at run
  · cases run
    exact here
  · next np _ =>
    obtain ⟨⟨trapframe, k₁⟩, allocated, rest⟩ := bind_eq_ok.mp run
    have first := inSpace_kept kalloc_kept k here trapframe k₁ allocated
    cases trapframe with
    | none =>
      obtain ⟨⟨⟨⟩, k₂⟩, freed, rest⟩ := bind_eq_ok.mp rest
      cases rest
      exact freeproc_kept k₁ first () _ freed
    | some frame =>
      obtain ⟨⟨⟨⟩, k₂⟩, held, rest⟩ := bind_eq_ok.mp rest
      have second := modifyProc_kept held first (first.2 np)
      obtain ⟨⟨made, k₃⟩, table, rest⟩ := bind_eq_ok.mp rest
      have third := inSpace_kept (proc_pagetable_kept frame) k₂ second made k₃ table
      dsimp only at rest
      split at rest
      · cases rest
        exact third
      · obtain ⟨⟨⟨⟩, k₄⟩, freed, rest⟩ := bind_eq_ok.mp rest
        cases rest
        exact freeproc_kept k₃ third () _ freed

theorem forkFile_kept {np : Pid} (i : Fin NOFILE) :
    Keeps (Kernel.Kept page) (forkFile pid np i : KProg Ip σ Unit) := by
  intro k here a k' run
  rw [forkFile] at run
  split at run
  · cases run
    exact here
  · obtain ⟨⟨⟨⟩, k₁⟩, dup, rest⟩ := bind_eq_ok.mp run
    obtain ⟨-, rfl⟩ := filedup_ends.mp dup
    exact modifyProc_kept rest ⟨here.1, here.2⟩ (here.2 np)

theorem forkVma_kept {np : Pid} (i : Fin VMASIZE) :
    Keeps (Kernel.Kept page) (forkVma pid np i : KProg Ip σ Unit) := by
  intro k here a k' run
  rw [forkVma] at run
  dsimp only at run
  split at run
  · obtain ⟨⟨⟨⟩, k₁⟩, copied, rest⟩ := bind_eq_ok.mp run
    have kept := modifyProc_kept copied here (here.2 np)
    obtain ⟨-, rfl⟩ := filedup_ends.mp rest
    exact kept
  · cases run
    exact here

theorem closeVma_kept (i : Fin VMASIZE) :
    Keeps (Kernel.Kept page) (closeVma layer pid i : KProg Ip σ Unit) := by
  intro k here a k' run
  obtain ⟨-, file, fs, rfl, -⟩ := closeVma_ends run
  exact ⟨here.1, guarded_of_update here.2 rfl (here.2 pid)⟩

theorem exitFile_kept (i : Fin NOFILE) :
    Keeps (Kernel.Kept page) (exitFile layer pid i : KProg Ip σ Unit) := by
  intro k here a k' run
  rw [exitFile] at run
  split at run
  · cases run
    exact here
  · obtain ⟨⟨⟨⟩, k₁⟩, closed, rest⟩ := bind_eq_ok.mp run
    obtain ⟨-, file, fs, rfl, -, -⟩ := fileclose_ends closed
    exact modifyProc_kept rest ⟨here.1, here.2⟩ (here.2 pid)

/-- One region at an `exit`: its pages are unmapped and its file is closed. -/
theorem exitVma_kept (i : Fin VMASIZE) :
    Keeps (Kernel.Kept page) (exitVma layer pid i : KProg Ip σ Unit) := by
  intro k here a k' run
  rw [exitVma] at run
  dsimp only at run
  split at run
  · obtain ⟨⟨⟨⟩, k₁⟩, unmapped, rest⟩ := bind_eq_ok.mp run
    exact closeVma_kept i k₁ (inSpace_kept (uvmunmap_kept _ _ _) k here () k₁ unmapped) () k' rest
  · cases run
    exact here

/-- `exit` writes to no page. -/
theorem exit_kept : Keeps (Kernel.Kept page) (exit layer pid : KProg Ip σ Unit) := by
  refine .ite (.throw _) (.bind (.forM fun i _ => exitFile_kept i) fun _ =>
    .bind (.forM fun i _ => exitVma_kept i) fun _ k here a k' run => ?_)
  exact modifyProc_kept run ⟨here.1, here.2⟩ (here.2 pid)

end Csc3150.Mmap
