/-
**What the calls do to the processes.**

For every function of `Kernel`, the process table after it in terms of the one before. The page
tables and physical memory are left open here where a loop changes them; `Frames` follows the pages.

* `inSpace_ends`, `fileclose_ends`, `writeback_ends` — the steps that calls are made of;
* `sys_mmap_ends`, `sys_munmap_ends`, `fork_procs`, `exit_procs` — the calls;
* `step_tables` — the region tables after any action.
-/

import Csc3150.Mmap.Kernel
import Csc3150.Mmap.Placement

namespace Csc3150.Mmap

open Outcome Program Search

variable {Ip σ α : Type} {k k' : Kernel Ip σ} {pid q : Pid} {layer : FileLayer Ip σ}

/-! ### State updates -/

namespace Kernel

variable (k : Kernel Ip σ) (pid : Pid) (p : Proc Ip) (f : Fp) (file : File Ip) (s : Space)

@[simp] theorem setProc_proc : (k.setProc pid p).proc = Function.update k.proc pid p := rfl
@[simp] theorem setProc_file : (k.setProc pid p).file = k.file := rfl
@[simp] theorem setProc_ram : (k.setProc pid p).ram = k.ram := rfl
@[simp] theorem setProc_fs : (k.setProc pid p).fs = k.fs := rfl
@[simp] theorem setProc_written : (k.setProc pid p).written = k.written := rfl
@[simp] theorem setFile_proc : (k.setFile f file).proc = k.proc := rfl
@[simp] theorem setFile_file : (k.setFile f file).file = Function.update k.file f file := rfl
@[simp] theorem setFile_ram : (k.setFile f file).ram = k.ram := rfl
@[simp] theorem setFile_fs : (k.setFile f file).fs = k.fs := rfl
@[simp] theorem setFile_written : (k.setFile f file).written = k.written := rfl
@[simp] theorem setSpace_proc : (k.setSpace pid s).proc =
    Function.update k.proc pid ((k.proc pid).setTable s.table) := rfl
@[simp] theorem setSpace_file : (k.setSpace pid s).file = k.file := rfl
@[simp] theorem setSpace_ram : (k.setSpace pid s).ram = s.ram := rfl
@[simp] theorem setSpace_fs : (k.setSpace pid s).fs = k.fs := rfl
@[simp] theorem setSpace_written : (k.setSpace pid s).written = k.written := rfl

end Kernel

/-! ### Steps of a call -/

theorem inSpace_ends {x : VmProg α} {a : α} : inSpace pid x k = .ok (a, k') ↔
    ∃ s, x (k.space pid) = .ok (a, s) ∧ k' = k.setSpace pid s := by
  rw [inSpace, bind_eq_ok]
  constructor
  · rintro ⟨⟨a', s⟩, run, rest⟩
    cases rest
    exact ⟨s, run, rfl⟩
  · rintro ⟨s, run, rfl⟩
    exact ⟨(a, s), run, rfl⟩

theorem inSpace_error {x : VmProg α} {error : Panic} (stops : x (k.space pid) = .error error) :
    inSpace pid x k = .error error :=
  bind_of_error stops

theorem filedup_ends {f : Fp} : filedup f k = .ok ((), k') ↔
    1 ≤ (k.file f).ref ∧ k' = k.setFile f { k.file f with ref := (k.file f).ref + 1 } := by
  rw [filedup]
  dsimp only
  split
  · next unreferenced => exact ⟨nofun, fun both => absurd both.1 (by omega)⟩
  · next referenced =>
    rw [Except.ok.injEq, Prod.mk.injEq, eq_comm (b := k')]
    exact ⟨fun same => ⟨by omega, same.2⟩, fun both => ⟨rfl, both.2⟩⟩

/-- `fileclose` drops one reference and leaves the processes and the memory alone. -/
theorem fileclose_ends {f : Fp} (run : fileclose layer f k = .ok ((), k')) :
    1 ≤ (k.file f).ref ∧ ∃ file fs, k' = { k.setFile f file with fs := fs } ∧
      file.ref = (k.file f).ref - 1 ∧ file.ip = (k.file f).ip := by
  rw [fileclose] at run
  dsimp only at run
  split_ifs at run with unreferenced last
  · cases run
    exact ⟨by omega, _, _, rfl, rfl, rfl⟩
  · have gone : (0 : Int) = (k.file f).ref - 1 := by omega
    split at run <;> cases run <;> exact ⟨by omega, _, _, rfl, gone, rfl⟩

/-- The write-back loop changes the file system only, and records the pages it wrote. -/
theorem writeback_ends {v : Vma} {ip : Ip} {vpns : List Nat} {accepted : Bool}
    (run : writeback layer pid v ip vpns k = .ok (accepted, k')) :
    ∃ fs written, k' = { k with fs := fs, written := written ++ k.written } ∧
      ∀ page ∈ written, page.vpn ∈ vpns ∧
        (k.proc pid).pagetable.walkaddr (page.vpn * PGSIZE) ≠ none := by
  induction vpns generalizing k with
  | nil =>
    cases run
    exact ⟨_, [], rfl, nofun⟩
  | cons vpn rest ih =>
    rw [writeback] at run
    dsimp only at run
    split at run
    · obtain ⟨fs, written, rfl, pages⟩ := ih run
      exact ⟨fs, written, rfl, fun page member =>
        ⟨List.mem_cons_of_mem _ (pages page member).1, (pages page member).2⟩⟩
    · next pte resident =>
      have here : (k.proc pid).pagetable.walkaddr (vpn * PGSIZE) ≠ none := by
        rw [resident]
        exact Option.some_ne_none _
      split at run
      · cases run
        refine ⟨_, [_], rfl, fun page member => ?_⟩
        rw [List.mem_singleton.mp member]
        exact ⟨List.mem_cons_self, here⟩
      · obtain ⟨fs, written, rfl, pages⟩ := ih run
        refine ⟨fs, written ++ [_], by rw [List.append_assoc]; rfl, fun page member => ?_⟩
        rcases List.mem_append.mp member with later | first
        · exact ⟨List.mem_cons_of_mem _ (pages page later).1, (pages page later).2⟩
        · rw [List.mem_singleton.mp first]
          exact ⟨List.mem_cons_self, here⟩

/-- Freeing the slot of a region. -/
theorem closeVma_ends {i : Fin VMASIZE} (run : closeVma layer pid i k = .ok ((), k')) :
    1 ≤ (k.file ((k.proc pid).vma i).file).ref ∧ ∃ file fs,
      k' = { (k.setFile ((k.proc pid).vma i).file file).setProc pid ((k.proc pid).setVma
        (Function.update (k.proc pid).vma i ((k.proc pid).vma i).free)) with fs := fs } ∧
      file.ref = (k.file ((k.proc pid).vma i).file).ref - 1 := by
  rw [closeVma, bind_eq_ok] at run
  obtain ⟨⟨⟨⟩, k₁⟩, closed, rest⟩ := run
  obtain ⟨referenced, file, fs, rfl, ref, -⟩ := fileclose_ends closed
  cases rest
  exact ⟨referenced, file, fs, rfl, ref⟩

/-! ### `sys_mmap` and `sys_munmap` -/

/-- `sys_mmap` refuses, or fills the first free slot. -/
theorem sys_mmap_ends {args : MmapArgs} {r : Int} (run : sys_mmap pid args k = .ok (r, k')) :
    (r = -1 ∧ k' = k) ∨
    ∃ f slot assigned v, VmaTable.place (k.proc pid).vma = (some slot, assigned) ∧
      VmaTable.IsNew v assigned ∧ v.length = PGROUNDUP_int args.length ∧ v.file = f ∧
      r = v.addr ∧ 1 ≤ (k.file f).ref ∧
      k' = (k.setProc pid ((k.proc pid).setVma
        (Function.update (k.proc pid).vma slot v))).setFile f
          { k.file f with ref := (k.file f).ref + 1 } := by
  rw [sys_mmap] at run
  dsimp only at run
  split at run
  · cases run
    exact Or.inl ⟨rfl, rfl⟩
  · next valid =>
    split at run
    · cases run
    · next f _ =>
      split_ifs at run
      · cases run
        exact Or.inl ⟨rfl, rfl⟩
      · cases run
        exact Or.inl ⟨rfl, rfl⟩
      · split at run
        · cases run
        · next slot assigned found =>
          obtain ⟨⟨⟨⟩, k₁⟩, dup, rest⟩ := bind_eq_ok.mp run
          obtain ⟨referenced, rfl⟩ := filedup_ends.mp dup
          cases rest
          refine Or.inr ⟨f, slot, assigned, _, found, ⟨rfl, ?_, PGROUNDUP_int_pages _, rfl⟩, rfl, rfl,
            rfl, referenced, rfl⟩
          rw [not_or, not_le] at valid
          exact valid.1

/-- `sys_munmap` unmaps the range, and frees the slot when the range is the whole region. -/
structure Unmaps (layer : FileLayer Ip σ) (pid : Pid) (start stop : Nat) (i : Fin VMASIZE)
    (k k' : Kernel Ip σ) (fs : σ) (written : List (Writeback Ip)) (s : Space) : Prop where
  resident : ∀ page ∈ written, page.vpn ∈ pagesBetween start stop ∧
    (k.proc pid).pagetable.walkaddr (page.vpn * PGSIZE) ≠ none
  silent : (((k.proc pid).vma i).isShared && ((k.proc pid).vma i).isWritable) = false → written = []
  unmaps : uvmunmap start (word (stop - start) / PGSIZE) (!((k.proc pid).vma i).isShared)
    (k.space pid) = .ok ((), s)
  closes : start = ((k.proc pid).vma i).addr ∧ stop = ((k.proc pid).vma i).limit →
    closeVma layer pid i ({ k with fs := fs, written := written ++ k.written }.setSpace pid s) =
      .ok ((), k')
  keeps : ¬ (start = ((k.proc pid).vma i).addr ∧ stop = ((k.proc pid).vma i).limit) →
    k' = { k with fs := fs, written := written ++ k.written }.setSpace pid s

/-- `sys_munmap` finds no region, is refused a write-back, or unmaps the range. -/
theorem sys_munmap_ends {addr : Nat} {length : Int32} {r : Int}
    (run : sys_munmap layer pid addr length k = .ok (r, k')) :
    (r = -1 ∧ VmaTable.find (k.proc pid).vma addr = none ∧ k' = k) ∨
    (r = -1 ∧ ∃ fs written, k' = { k with fs := fs, written := written ++ k.written } ∧
      ∀ page ∈ written, page.vpn ∈ pagesBetween (munmapRange addr length).1
          (munmapRange addr length).2 ∧
        (k.proc pid).pagetable.walkaddr (page.vpn * PGSIZE) ≠ none) ∨
    (r = 0 ∧ ∃ i fs written s, VmaTable.find (k.proc pid).vma addr = some i ∧
      Unmaps layer pid (munmapRange addr length).1 (munmapRange addr length).2 i k k' fs written s) := by
  rw [sys_munmap] at run
  dsimp only at run
  split at run
  · next absent =>
    cases run
    exact Or.inl ⟨rfl, absent, rfl⟩
  · next i found =>
    generalize (munmapRange addr length).1 = start at run ⊢
    generalize (munmapRange addr length).2 = stop at run ⊢
    have finish : ∀ {k₁ : Kernel Ip σ} (fs : σ) (written : List (Writeback Ip)),
        k₁ = { k with fs := fs, written := written ++ k.written } →
        (∀ page ∈ written, page.vpn ∈ pagesBetween start stop ∧
          (k.proc pid).pagetable.walkaddr (page.vpn * PGSIZE) ≠ none) →
        ((((k.proc pid).vma i).isShared && ((k.proc pid).vma i).isWritable) = false →
          written = []) →
        (do
          inSpace pid (uvmunmap start (word (stop - start) / PGSIZE) (!((k.proc pid).vma i).isShared))
          if start = ((k.proc pid).vma i).addr ∧ stop = ((k.proc pid).vma i).limit then
            closeVma layer pid i
          return 0 : KProg Ip σ Int) k₁ = .ok (r, k') →
        r = 0 ∧ ∃ s, Unmaps layer pid start stop i k k' fs written s := by
      rintro k₁ fs written rfl resident silent rest
      obtain ⟨⟨⟩, k₂, unmapped, rest⟩ := bind_ends.mp rest
      obtain ⟨s, unmaps, rfl⟩ := inSpace_ends.mp unmapped
      split_ifs at rest with whole
      · obtain ⟨⟨⟩, k₃, closed, rest⟩ := bind_ends.mp rest
        cases rest
        exact ⟨rfl, s, resident, silent, unmaps, fun _ => closed, fun part => absurd whole part⟩
      · cases rest
        exact ⟨rfl, s, resident, silent, unmaps, fun whole' => absurd whole' whole, fun _ => rfl⟩
    split at run
    · next writes =>
      obtain ⟨ip, -, run⟩ := bind_eq_ok.mp run
      obtain ⟨⟨accepted, k₁⟩, wrote, rest⟩ := bind_eq_ok.mp run
      obtain ⟨fs, written, rfl, resident⟩ := writeback_ends wrote
      dsimp only at rest
      split at rest
      · obtain ⟨ok, s, unmaps⟩ := finish fs written rfl resident
          (fun silent => absurd writes (by rw [silent]; exact Bool.false_ne_true)) rest
        exact Or.inr (Or.inr ⟨ok, i, fs, written, s, found, unmaps⟩)
      · cases rest
        exact Or.inr (Or.inl ⟨rfl, fs, written, rfl, resident⟩)
    · obtain ⟨ok, s, unmaps⟩ := finish k.fs [] rfl nofun (fun _ => rfl) run
      exact Or.inr (Or.inr ⟨ok, i, k.fs, [], s, found, unmaps⟩)

/-! ### Slots of the process table -/

/-- The process of a slot after `freeproc`. -/
def Proc.freed (p : Proc Ip) : Proc Ip :=
  { p with trapframe := none, pagetable := .null, sz := 0, killed := false, state := .unused }

theorem modifyProc_ends {change : Proc Ip → Proc Ip} :
    modifyProc pid change k = .ok ((), k') ↔ k' = k.setProc pid (change (k.proc pid)) := by
  rw [modifyProc, Except.ok.injEq, Prod.mk.injEq, eq_comm (b := k')]
  exact ⟨And.right, fun same => ⟨rfl, same⟩⟩

/-- `freeproc` resets the slot; the files and the file system stay. -/
theorem freeproc_ends (run : freeproc pid k = .ok ((), k')) :
    ∃ ram, k' = { k.setProc pid (k.proc pid).freed with ram := ram } := by
  obtain ⟨⟨⟨⟩, k₁⟩, first, rest⟩ := bind_eq_ok.mp run
  obtain ⟨⟨⟨⟩, k₂⟩, second, rest⟩ := bind_eq_ok.mp rest
  have trapframe : ∃ ram table, k₁ =
      { k.setProc pid ((k.proc pid).setTable table) with ram := ram } := by
    split at first
    · obtain ⟨s, -, rfl⟩ := inSpace_ends.mp first
      exact ⟨_, _, rfl⟩
    · cases first
      exact ⟨k.ram, (k.proc pid).pagetable, by
        rw [Proc.setTable_self, Kernel.setProc, Function.update_eq_self]⟩
  have pagetable : ∃ ram table, k₂ =
      { k.setProc pid ((k.proc pid).setTable table) with ram := ram } := by
    obtain ⟨ram, table, rfl⟩ := trapframe
    split at second
    · cases second
      exact ⟨_, _, rfl⟩
    · obtain ⟨s, -, rfl⟩ := inSpace_ends.mp second
      refine ⟨s.ram, s.table, ?_⟩
      simp only [Kernel.setSpace, Kernel.setProc, Function.update_self, Function.update_idem,
        Proc.setTable_setTable]
  obtain ⟨ram, table, rfl⟩ := pagetable
  rw [modifyProc_ends.mp rest]
  refine ⟨ram, ?_⟩
  simp only [Kernel.setProc, Function.update_self, Function.update_idem, Proc.freed, Proc.setTable]

/-- `allocproc` leaves everything, resets an unused slot, or sets one up. -/
theorem allocproc_ends {found : Option Pid} (run : allocproc k = .ok (found, k')) :
    (found = none ∧ (k' = k ∨ ∃ np ram, (k.proc np).state = .unused ∧
      k' = { k.setProc np (k.proc np).freed with ram := ram })) ∨
    ∃ np frame table ram, found = some np ∧ (k.proc np).state = .unused ∧
      k' = { k.setProc np { k.proc np with trapframe := some frame, pagetable := table } with
        ram := ram } := by
  rw [allocproc] at run
  split at run
  · cases run
    exact Or.inl ⟨rfl, Or.inl rfl⟩
  · next np slot =>
    obtain ⟨np', here, -⟩ := searchFin_eq_some_iff.mp slot
    rw [Option.ite_none_right_eq_some, Option.some.injEq] at here
    obtain ⟨unused, rfl⟩ := here
    obtain ⟨⟨trapframe, k₁⟩, allocated, rest⟩ := bind_eq_ok.mp run
    obtain ⟨s, -, rfl⟩ := inSpace_ends.mp allocated
    dsimp only at rest
    split at rest
    · obtain ⟨⟨⟨⟩, k₂⟩, freed, rest⟩ := bind_eq_ok.mp rest
      obtain ⟨ram, rfl⟩ := freeproc_ends freed
      cases rest
      refine Or.inl ⟨rfl, Or.inr ⟨np', ram, unused, ?_⟩⟩
      simp only [Kernel.setSpace, Kernel.setProc, Function.update_self, Function.update_idem,
        Proc.freed, Proc.setTable]
    · next frame =>
      obtain ⟨⟨⟨⟩, k₂⟩, held, rest⟩ := bind_eq_ok.mp rest
      rw [modifyProc_ends] at held
      subst held
      obtain ⟨⟨made, k₃⟩, table, rest⟩ := bind_eq_ok.mp rest
      obtain ⟨s', -, rfl⟩ := inSpace_ends.mp table
      dsimp only at rest
      split at rest
      · cases rest
        refine Or.inr ⟨np', frame, s'.table, s'.ram, rfl, unused, ?_⟩
        simp only [Kernel.setSpace, Kernel.setProc, Function.update_self, Function.update_idem,
          Proc.setTable]
      · obtain ⟨⟨⟨⟩, k₄⟩, freed, rest⟩ := bind_eq_ok.mp rest
        obtain ⟨ram, rfl⟩ := freeproc_ends freed
        cases rest
        refine Or.inl ⟨rfl, Or.inr ⟨np', ram, unused, ?_⟩⟩
        simp only [Kernel.setSpace, Kernel.setProc, Function.update_self, Function.update_idem,
          Proc.freed, Proc.setTable]

/-! ### `fork` and `exit` -/

/-- The regions of a child in a slot with the regions `old`. -/
def childTable (parent old : VmaTable) : VmaTable := fun i =>
  if (parent i).used then parent i else old i

/-- The loop of `fork` over the descriptors. -/
theorem forkFiles_ends {np : Pid} :
    Ensures ((List.finRange NOFILE).forM (forkFile pid np)) k fun _ k' =>
      ∃ ofile, k'.proc = Function.update k.proc np ((k.proc np).setFiles ofile) ∧
        k'.ram = k.ram ∧ k'.written = k.written := by
  refine Ensures.forM_invariant ⟨(k.proc np).ofile, ?_, rfl, rfl⟩ fun i _ k₁ holds => ?_
  · rw [Proc.setFiles_self, Function.update_eq_self]
  · rintro ⟨⟩ k₂ run
    obtain ⟨ofile, procs, ram, written⟩ := holds
    rw [forkFile] at run
    split at run
    · cases run
      exact ⟨ofile, procs, ram, written⟩
    · next f _ =>
      obtain ⟨⟨⟨⟩, k₃⟩, dup, rest⟩ := bind_eq_ok.mp run
      obtain ⟨-, rfl⟩ := filedup_ends.mp dup
      rw [modifyProc_ends.mp rest]
      refine ⟨Function.update ofile i (some f), ?_, ram, written⟩
      simp only [Kernel.setProc_proc, Kernel.setFile_proc, procs, Function.update_self,
        Function.update_idem, Proc.setFiles_setFiles, Proc.setFiles_ofile]

/-- The loop of `fork` over the regions. -/
theorem forkVmas_ends {np : Pid} (other : np ≠ pid) :
    Ensures ((List.finRange VMASIZE).forM (forkVma pid np)) k fun _ k' =>
      k'.proc = Function.update k.proc np
          ((k.proc np).setVma (childTable (k.proc pid).vma (k.proc np).vma)) ∧
        k'.ram = k.ram ∧ k'.written = k.written := by
  refine Ensures.weaken (Ensures.forM (fun done (k' : Kernel Ip σ) => k'.proc =
    Function.update k.proc np ((k.proc np).setVma fun i =>
      if i ∈ done ∧ ((k.proc pid).vma i).used = true then (k.proc pid).vma i
      else (k.proc np).vma i) ∧ k'.ram = k.ram ∧ k'.written = k.written)
    (List.finRange VMASIZE) ?_ ?_) fun _ k' holds => ⟨?_, holds.2⟩
  · simp only [List.not_mem_nil, false_and, if_false, Proc.setVma_self, Function.update_eq_self,
      and_self]
  · rintro done i rest - k₁ ⟨procs, ram, written⟩ ⟨⟩ k₂ run
    have parent : k₁.proc pid = k.proc pid := by rw [procs, Function.update_of_ne other.symm]
    rw [forkVma, parent] at run
    dsimp only at run
    split at run
    · next used =>
      obtain ⟨⟨⟨⟩, k₃⟩, copied, rest⟩ := bind_eq_ok.mp run
      rw [modifyProc_ends] at copied
      subst copied
      obtain ⟨-, rfl⟩ := filedup_ends.mp rest
      refine ⟨?_, ram, written⟩
      simp only [Kernel.setProc_proc, Kernel.setFile_proc, procs, Function.update_self,
        Function.update_idem, Proc.setVma_setVma, Proc.setVma_vma]
      congr 2
      funext j
      by_cases same : j = i
      · subst same
        rw [Function.update_self, if_pos ⟨List.mem_append_right _ List.mem_cons_self, used⟩]
      · rw [Function.update_of_ne same]
        simp only [List.mem_append, List.mem_singleton, same, or_false]
    · next unused =>
      cases run
      refine ⟨?_, ram, written⟩
      rw [procs]
      congr 2
      funext j
      by_cases same : j = i
      · subst same
        rw [if_neg (fun both => unused both.2), if_neg (fun both => unused both.2)]
      · simp only [List.mem_append, List.mem_singleton, same, or_false]
  · rw [holds.1]
    simp only [List.mem_finRange, true_and]
    rfl

/-- `fork` leaves the processes, resets an unused slot, or makes a child there. -/
theorem fork_procs {r : Int} (running : (k.proc pid).state = .runnable)
    (run : fork layer pid k = .ok (r, k')) :
    r = -1 ∧ k'.proc = k.proc ∨ ∃ np, (k.proc np).state = .unused ∧
      (r = -1 ∧ k'.proc = Function.update k.proc np (k.proc np).freed ∨
        r = np.val ∧ ∃ child : Proc Ip, k'.proc = Function.update k.proc np child ∧
          child.state = .runnable ∧ child.sz = (k.proc pid).sz ∧
          child.vma = childTable (k.proc pid).vma (k.proc np).vma) := by
  obtain ⟨found, k₁, allocated, rest⟩ := bind_ends.mp run
  rcases allocproc_ends allocated with ⟨rfl, same | ⟨np, ram, unused, rfl⟩⟩ |
    ⟨np, frame, table, ram, rfl, unused, rfl⟩
  · cases rest
    exact Or.inl ⟨rfl, congrArg Kernel.proc same⟩
  · cases rest
    exact Or.inr ⟨np, unused, Or.inl ⟨rfl, rfl⟩⟩
  · have other : np ≠ pid := by
      rintro rfl
      rw [running] at unused
      cases unused
    obtain ⟨copied, k₂, copy, rest⟩ := bind_ends.mp rest
    obtain ⟨s, -, rfl⟩ := inSpace_ends.mp copy
    split at rest
    · obtain ⟨⟨⟩, k₃, sized, rest⟩ := bind_ends.mp rest
      rw [modifyProc_ends] at sized
      subst sized
      obtain ⟨⟨⟩, k₄, files, rest⟩ := bind_ends.mp rest
      obtain ⟨ofile, procs, -, -⟩ := forkFiles_ends () k₄ files
      obtain ⟨⟨⟩, k₅, cwd, rest⟩ := bind_ends.mp rest
      rw [modifyProc_ends] at cwd
      subst cwd
      obtain ⟨⟨⟩, k₆, vmas, rest⟩ := bind_ends.mp rest
      obtain ⟨procs', -, -⟩ := forkVmas_ends other () k₆ vmas
      obtain ⟨⟨⟩, k₇, started, rest⟩ := bind_ends.mp rest
      rw [modifyProc_ends] at started
      subst started
      cases rest
      refine Or.inr ⟨np, unused, Or.inr ⟨rfl, { k₆.proc np with state := .runnable }, ?_, rfl, ?_,
        ?_⟩⟩
      · simp only [Kernel.setProc_proc, procs', procs, Kernel.setSpace_proc, Function.update_idem]
      · simp [Kernel.setProc_proc, procs', procs, Kernel.setSpace_proc, other.symm]
      · simp [Kernel.setProc_proc, procs', procs, Kernel.setSpace_proc, other.symm]
    · obtain ⟨⟨⟩, k₃, freed, rest⟩ := bind_ends.mp rest
      obtain ⟨ram', rfl⟩ := freeproc_ends freed
      cases rest
      refine Or.inr ⟨np, unused, Or.inl ⟨rfl, ?_⟩⟩
      simp only [Kernel.setProc_proc, Kernel.setSpace_proc, Function.update_self,
        Function.update_idem, Proc.freed, Proc.setTable]

/-- The loop of `exit` over the descriptors. -/
theorem exitFiles_ends : Ensures ((List.finRange NOFILE).forM (exitFile layer pid)) k fun _ k' =>
    ∃ ofile, k'.proc = Function.update k.proc pid ((k.proc pid).setFiles ofile) ∧
      k'.ram = k.ram ∧ k'.written = k.written := by
  refine Ensures.forM_invariant ⟨(k.proc pid).ofile, ?_, rfl, rfl⟩ fun i _ k₁ holds => ?_
  · rw [Proc.setFiles_self, Function.update_eq_self]
  · rintro ⟨⟩ k₂ run
    obtain ⟨ofile, procs, ram, written⟩ := holds
    rw [exitFile] at run
    split at run
    · cases run
      exact ⟨ofile, procs, ram, written⟩
    · obtain ⟨⟨⟨⟩, k₃⟩, closed, rest⟩ := bind_eq_ok.mp run
      obtain ⟨-, file, fs, rfl, -, -⟩ := fileclose_ends closed
      rw [modifyProc_ends.mp rest]
      refine ⟨Function.update ofile i none, ?_, ram, written⟩
      simp only [Kernel.setProc_proc, Kernel.setFile_proc, procs, Function.update_self,
        Function.update_idem, Proc.setFiles_setFiles, Proc.setFiles_ofile]

/-- The regions of a table with some of the slots freed. -/
def freeSlots (table : VmaTable) (slots : List (Fin VMASIZE)) : VmaTable := fun i =>
  if i ∈ slots then (table i).free else table i

theorem freeSlots_append (table : VmaTable) (slots : List (Fin VMASIZE)) (i : Fin VMASIZE) :
    freeSlots table (slots ++ [i]) = Function.update (freeSlots table slots) i (table i).free := by
  funext j
  by_cases same : j = i
  · subst same
    rw [Function.update_self]
    exact if_pos (List.mem_append_right _ List.mem_cons_self)
  · rw [Function.update_of_ne same]
    simp only [freeSlots, List.mem_append, List.mem_singleton, same, or_false]

/-- One turn of the loop of `exit` over the regions. -/
theorem exitVma_ends {i : Fin VMASIZE} (run : exitVma layer pid i k = .ok ((), k')) :
    ∃ table, k'.proc = Function.update k.proc pid (((k.proc pid).setTable table).setVma
      (Function.update (k.proc pid).vma i ((k.proc pid).vma i).free)) := by
  rw [exitVma] at run
  dsimp only at run
  split at run
  · obtain ⟨⟨⟨⟩, k₁⟩, unmapped, rest⟩ := bind_eq_ok.mp run
    obtain ⟨s, -, rfl⟩ := inSpace_ends.mp unmapped
    obtain ⟨-, file, fs, rfl, -⟩ := closeVma_ends rest
    refine ⟨s.table, ?_⟩
    simp only [Kernel.setProc_proc, Kernel.setFile_proc, Kernel.setSpace_proc, Function.update_self,
      Function.update_idem, Proc.setTable_vma]
  · next unused =>
    cases run
    refine ⟨(k.proc pid).pagetable, ?_⟩
    rw [Vma.free_of_unused unused, Function.update_eq_self, Proc.setTable_self, Proc.setVma_self,
      Function.update_eq_self]

/-- The loop of `exit` over the regions. -/
theorem exitVmas_ends (slots : List (Fin VMASIZE)) (distinct : slots.Nodup) :
    Ensures (slots.forM (exitVma layer pid)) k fun _ k' =>
      ∃ table, k'.proc = Function.update k.proc pid (((k.proc pid).setTable table).setVma
        (freeSlots (k.proc pid).vma slots)) := by
  refine Ensures.forM (fun done (k' : Kernel Ip σ) => ∃ table, k'.proc = Function.update k.proc pid
    (((k.proc pid).setTable table).setVma (freeSlots (k.proc pid).vma done))) slots ?_ ?_
  · refine ⟨(k.proc pid).pagetable, ?_⟩
    have none : freeSlots (k.proc pid).vma [] = (k.proc pid).vma := rfl
    rw [none, Proc.setTable_self, Proc.setVma_self, Function.update_eq_self]
  · rintro done i rest split k₁ ⟨table, procs⟩ ⟨⟩ k₂ run
    obtain ⟨table', procs'⟩ := exitVma_ends run
    have later : i ∉ done := by
      rw [split, List.nodup_append] at distinct
      exact fun member => distinct.2.2 i member i List.mem_cons_self rfl
    refine ⟨table', ?_⟩
    rw [procs', procs, freeSlots_append]
    simp only [Function.update_self, Function.update_idem, Proc.setVma_vma, freeSlots, later,
      if_false]
    rfl

/-- `exit` frees every region and leaves a zombie. -/
theorem exit_procs (run : exit layer pid k = .ok ((), k')) :
    ∃ p : Proc Ip, k'.proc = Function.update k.proc pid p ∧ p.state = .zombie ∧
      p.sz = (k.proc pid).sz ∧ ∀ i, (p.vma i).used = false := by
  rw [exit] at run
  split at run
  · cases run
  · obtain ⟨⟨⟩, k₁, files, rest⟩ := bind_ends.mp run
    obtain ⟨ofile, procs, -, -⟩ := exitFiles_ends () k₁ files
    obtain ⟨⟨⟩, k₂, vmas, rest⟩ := bind_ends.mp rest
    obtain ⟨table, procs'⟩ := exitVmas_ends _ (List.nodup_finRange _) () k₂ vmas
    rw [modifyProc_ends.mp rest]
    refine ⟨{ k₂.proc pid with cwd := none, state := .zombie }, ?_, rfl, ?_, fun i => ?_⟩
    · simp only [Kernel.setProc_proc, procs', procs, Function.update_idem]
    · simp only [procs', procs, Function.update_self, Proc.setVma_sz, Proc.setTable_sz,
        Proc.setFiles_sz]
    · simp only [procs', procs, Function.update_self, Proc.setVma_vma, freeSlots, List.mem_finRange,
        if_true, Vma.free_used]

/-! ### Region tables -/

/-- The used regions of a table are regions of another, in the same slots. -/
def VmaTable.Shrinks (table after : VmaTable) : Prop :=
  ∀ i, (after i).used = true → after i = table i

/-- Only a running process has regions. -/
def Kernel.IdleEmpty (k : Kernel Ip σ) : Prop :=
  ∀ q i, ((k.proc q).vma i).used = true → (k.proc q).state = .runnable

namespace VmaTable

variable {table after : VmaTable}

theorem Shrinks.refl (table : VmaTable) : table.Shrinks table := fun _ _ => rfl

theorem Shrinks.placed (shrinks : table.Shrinks after) (placed : table.Placed) : after.Placed := by
  intro i used
  have same := shrinks i used
  rw [same] at used ⊢
  exact placed i used

theorem Shrinks.apart (shrinks : table.Shrinks after) (apart : table.Apart) : after.Apart := by
  intro i j different used used'
  have same := shrinks i used
  have same' := shrinks j used'
  rw [same] at used ⊢
  rw [same'] at used' ⊢
  exact apart i j different used used'

theorem shrinks_free (table : VmaTable) (i : Fin VMASIZE) :
    table.Shrinks (Function.update table i (table i).free) := by
  intro j used
  refine Function.update_of_ne ?_ _ _
  rintro rfl
  rw [Function.update_self] at used
  cases used

theorem shrinks_of_empty (empty : ∀ i, (after i).used = false) : table.Shrinks after := by
  intro i used
  rw [empty i] at used
  cases used

theorem shrinks_child {parent old : VmaTable} (empty : ∀ i, (old i).used = false) :
    parent.Shrinks (childTable parent old) := by
  intro i used
  unfold childTable at used ⊢
  split at used
  · next here => exact if_pos here
  · rw [empty i] at used
    cases used

end VmaTable

/-- Processes of which only the page table and freed regions differ. -/
structure Proc.Loses (p after : Proc Ip) : Prop where
  state : after.state = p.state
  sz : after.sz = p.sz
  trapframe : after.trapframe = p.trapframe
  vma : p.vma.Shrinks after.vma

theorem Proc.Loses.refl (p : Proc Ip) : p.Loses p := ⟨rfl, rfl, rfl, .refl _⟩

/-- The process of a call to `sys_munmap` that unmaps. -/
theorem Unmaps.proc {start stop : Nat} {i : Fin VMASIZE} {fs : σ} {written : List (Writeback Ip)}
    {s : Space} (unmaps : Unmaps layer pid start stop i k k' fs written s) :
    (k'.proc = Function.update k.proc pid (((k.proc pid).setTable s.table).setVma
      (if start = ((k.proc pid).vma i).addr ∧ stop = ((k.proc pid).vma i).limit then
        Function.update (k.proc pid).vma i ((k.proc pid).vma i).free else (k.proc pid).vma))) ∧
    k'.ram = s.ram ∧ k'.written = written ++ k.written := by
  split
  · next whole =>
    obtain ⟨-, file, fs, rfl, -⟩ := closeVma_ends (unmaps.closes whole)
    simp only [Kernel.setProc_proc, Kernel.setFile_proc, Kernel.setSpace_proc, Function.update_self,
      Function.update_idem, Proc.setTable_vma, Kernel.setProc_ram, Kernel.setFile_ram,
      Kernel.setSpace_ram, Kernel.setProc_written, Kernel.setFile_written, Kernel.setSpace_written,
      and_self]
  · next part =>
    rw [unmaps.keeps part]
    exact ⟨rfl, rfl, rfl⟩

/-- `sys_munmap` changes its own process only, which loses regions. -/
theorem sys_munmap_procs {addr : Nat} {length : Int32} {r : Int}
    (run : sys_munmap layer pid addr length k = .ok (r, k')) (q : Pid) :
    (k.proc q).Loses (k'.proc q) := by
  rcases sys_munmap_ends run with ⟨-, -, rfl⟩ | ⟨-, fs, written, rfl, -⟩ |
    ⟨-, i, fs, written, s, -, unmaps⟩
  · exact .refl _
  · exact .refl _
  · rw [unmaps.proc.1]
    by_cases same : q = pid
    · subst same
      rw [Function.update_self]
      refine ⟨rfl, rfl, rfl, ?_⟩
      rw [Proc.setVma_vma]
      split
      · exact VmaTable.shrinks_free _ _
      · exact .refl _
    · rw [Function.update_of_ne same]
      exact .refl _

/-- The process of a kernel has another page table and another `killed` flag, and memory changed. -/
def Kernel.Faulted (pid : Pid) (k k' : Kernel Ip σ) : Prop :=
  ∃ table killed ram, k' =
    { k.setProc pid { k.proc pid with pagetable := table, killed := killed } with ram := ram }

namespace Kernel.Faulted

theorem refl (k : Kernel Ip σ) (pid : Pid) (ram : Ram) : Faulted pid k { k with ram := ram } :=
  ⟨(k.proc pid).pagetable, (k.proc pid).killed, ram, by
    rw [Kernel.setProc, Function.update_eq_self]⟩

theorem setSpace {k₁ : Kernel Ip σ} (faulted : Faulted pid k k₁) (s : Space) :
    Faulted pid k (k₁.setSpace pid s) := by
  obtain ⟨table, killed, ram, rfl⟩ := faulted
  refine ⟨s.table, killed, s.ram, ?_⟩
  simp only [Kernel.setSpace, Kernel.setProc, Function.update_self, Function.update_idem,
    Proc.setTable]

theorem setkilled {k₁ k₂ : Kernel Ip σ} (faulted : Faulted pid k k₁)
    (run : setkilled pid k₁ = .ok ((), k₂)) : Faulted pid k k₂ := by
  obtain ⟨table, killed, ram, rfl⟩ := faulted
  rw [modifyProc_ends.mp run]
  refine ⟨table, true, ram, ?_⟩
  simp only [Kernel.setProc, Function.update_self, Function.update_idem]

theorem loses (faulted : Faulted pid k k') (q : Pid) : (k.proc q).Loses (k'.proc q) := by
  obtain ⟨table, killed, ram, rfl⟩ := faulted
  by_cases same : q = pid
  · subst same
    refine ⟨?_, ?_, ?_, ?_⟩ <;> rw [Kernel.setProc_proc, Function.update_self]
    exact .refl _
  · rw [Kernel.setProc_proc, Function.update_of_ne same]
    exact .refl _

end Kernel.Faulted

/-- A page fault changes the page table of its process and its `killed` flag. -/
theorem pageFault_ends {addr : Nat} (run : pageFault layer pid addr k = .ok ((), k')) :
    k.Faulted pid k' := by
  rw [pageFault] at run
  dsimp only at run
  split at run
  · cases run
  · obtain ⟨⟨usable, k₁⟩, lent, rest⟩ := bind_eq_ok.mp run
    obtain ⟨s, -, rfl⟩ := inSpace_ends.mp lent
    have first := (Kernel.Faulted.refl k pid k.ram).setSpace s
    dsimp only at rest
    split at rest
    · exact first.setkilled rest
    · obtain ⟨ip, -, rest⟩ := bind_eq_ok.mp rest
      split at rest
      · obtain ⟨⟨⟨⟩, k₂⟩, freed, rest⟩ := bind_eq_ok.mp rest
        obtain ⟨s', -, rfl⟩ := inSpace_ends.mp freed
        exact (first.setSpace s').setkilled rest
      · obtain ⟨⟨mapped, k₂⟩, map, rest⟩ := bind_eq_ok.mp rest
        obtain ⟨s', -, rfl⟩ := inSpace_ends.mp map
        have second := first.setSpace s'
        dsimp only at rest
        split at rest
        · cases rest
          exact second
        · obtain ⟨⟨⟨⟩, k₃⟩, freed, rest⟩ := bind_eq_ok.mp rest
          obtain ⟨s'', -, rfl⟩ := inSpace_ends.mp freed
          exact (second.setSpace s'').setkilled rest

/-- A load or a store changes the page table of its process and its `killed` flag at most. -/
theorem access_ends {addr : Nat} {store : Option UInt8}
    (run : access layer pid addr store k = .ok ((), k')) : k.Faulted pid k' := by
  rw [access] at run
  split at run
  · exact pageFault_ends run
  · split at run
    · split at run <;> cases run
      · exact .refl k pid k.ram
      · exact .refl k pid _
    · exact pageFault_ends run

/-- What an action can make of the process `q`. -/
inductive ProcStep (k : Kernel Ip σ) (label : Label) (q : Pid) (after : Proc Ip) : Prop
  | loses (loses : (k.proc q).Loses after)
  | maps (args : MmapArgs) (slot : Fin VMASIZE) (assigned : Nat) (v : Vma)
    (is_mmap : label = ⟨q, .mmap args⟩)
    (place : VmaTable.place (k.proc q).vma = (some slot, assigned))
    (fresh : VmaTable.IsNew v assigned) (length : v.length = PGROUNDUP_int args.length)
    (same : after = (k.proc q).setVma (Function.update (k.proc q).vma slot v))
  | resets (idle : (k.proc q).state ≠ .runnable) (same : after = (k.proc q).freed)
  | forks (parent : Pid) (unused : (k.proc q).state = .unused) (running : after.state = .runnable)
    (sz : after.sz = (k.proc parent).sz)
    (vma : after.vma = childTable (k.proc parent).vma (k.proc q).vma)
  | exits (zombie : after.state = .zombie) (sz : after.sz = (k.proc q).sz)
    (gone : ∀ i, (after.vma i).used = false)

theorem ProcStep.update {label : Label} {p : Proc Ip} (procs : k'.proc = Function.update k.proc pid p)
    (step : ProcStep k label pid p) (q : Pid) : ProcStep k label q (k'.proc q) := by
  rw [procs]
  by_cases same : q = pid
  · subst same
    rwa [Function.update_self]
  · rw [Function.update_of_ne same]
    exact .loses (.refl _)

theorem step_procs {label : Label} (step : k.Step layer label k') (q : Pid) :
    ProcStep k label q (k'.proc q) := by
  obtain ⟨enabled, r, run⟩ := step
  obtain ⟨pid, action⟩ := label
  cases action with
  | mmap args =>
    rcases sys_mmap_ends run with ⟨-, rfl⟩ | ⟨f, slot, assigned, v, place, fresh, length, -, -, -, rfl⟩
    · exact .loses (.refl _)
    · exact ProcStep.update rfl (.maps args slot assigned v rfl place fresh length rfl) q
  | munmap addr length => exact .loses (sys_munmap_procs run q)
  | access addr store =>
    obtain ⟨⟨⟩, k₁, run, rest⟩ := bind_ends.mp run
    cases rest
    exact .loses ((access_ends run).loses q)
  | fork =>
    rcases fork_procs enabled.1 run with ⟨-, same⟩ |
      ⟨np, unused, ⟨-, same⟩ | ⟨-, child, same, running, sz, vma⟩⟩
    · rw [same]
      exact .loses (.refl _)
    · refine ProcStep.update same (.resets ?_ rfl) q
      rw [unused]
      exact ProcState.noConfusion
    · exact ProcStep.update same (.forks pid unused running sz vma) q
  | exit =>
    obtain ⟨⟨⟩, k₁, run, rest⟩ := bind_ends.mp run
    cases rest
    obtain ⟨p, procs, zombie, sz, gone⟩ := exit_procs run
    exact ProcStep.update procs (.exits zombie sz gone) q
  | reap =>
    obtain ⟨⟨⟩, k₁, run, rest⟩ := bind_ends.mp run
    cases rest
    obtain ⟨ram, rfl⟩ := freeproc_ends run
    have zombie : (k.proc pid).state = .zombie := enabled
    refine ProcStep.update (p := (k.proc pid).freed) rfl (.resets ?_ rfl) q
    rw [zombie]
    exact ProcState.noConfusion

theorem Kernel.IdleEmpty.empty (idle : k.IdleEmpty) (stopped : (k.proc q).state ≠ .runnable)
    (i : Fin VMASIZE) : ((k.proc q).vma i).used = false := by
  by_contra used
  exact stopped (idle q i (Bool.eq_true_of_not_eq_false used))

/-- An action leaves processes that are not running without regions. -/
theorem step_idleEmpty {label : Label} (enabled : Enabled (k.proc label.pid) label.action)
    (idle : k.IdleEmpty) (step : ∀ q, ProcStep k label q (k'.proc q)) : k'.IdleEmpty := by
  intro q i used
  cases step q with
  | loses loses =>
    rw [loses.vma i used] at used
    exact loses.state.trans (idle q i used)
  | maps args slot assigned v is_mmap place fresh length same =>
    subst is_mmap
    rw [same]
    exact enabled.1
  | resets stopped same =>
    rw [same] at used
    exact absurd (idle q i used) stopped
  | forks parent unused running sz vma => exact running
  | exits zombie sz gone =>
    rw [gone i] at used
    cases used

/-- The table of every process after an action: `sys_mmap` adds a region, every other action leaves
regions of a table that a process had. -/
theorem step_tables {label : Label} (idle : k.IdleEmpty)
    (step : ∀ q, ProcStep k label q (k'.proc q)) (q : Pid) :
    (∃ p, (k.proc p).vma.Shrinks (k'.proc q).vma) ∨
    ∃ args slot assigned v, label = ⟨q, .mmap args⟩ ∧
      VmaTable.place (k.proc q).vma = (some slot, assigned) ∧ VmaTable.IsNew v assigned ∧
      v.length = PGROUNDUP_int args.length ∧
      (k'.proc q).vma = Function.update (k.proc q).vma slot v := by
  cases step q with
  | loses loses => exact Or.inl ⟨q, loses.vma⟩
  | maps args slot assigned v is_mmap place fresh length same =>
    rw [same]
    exact Or.inr ⟨args, slot, assigned, v, is_mmap, place, fresh, length, rfl⟩
  | resets stopped same => exact Or.inl ⟨q, same ▸ .refl _⟩
  | forks parent unused running sz vma =>
    refine Or.inl ⟨parent, vma ▸ VmaTable.shrinks_child (idle.empty ?_)⟩
    rw [unused]
    exact ProcState.noConfusion
  | exits zombie sz gone => exact Or.inl ⟨q, VmaTable.shrinks_of_empty gone⟩

end Csc3150.Mmap
