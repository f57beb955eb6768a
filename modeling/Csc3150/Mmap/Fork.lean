/-
**What a child sees in the mappings of its parent.**

`fork` copies the records of the regions and none of their pages, so the first access of a child to a
page reads the file again.

* `step_ip` — no action changes the inode of a file;
* `child_loads_file` — the first load of a child from a page of a region of its parent gives the bytes
  of the file, which are those of the parent exactly where its page still agrees with the file;
* `child_misses_store` — it does not where the parent stored to the page.
-/

import Csc3150.Library.Keeping
import Csc3150.Mmap.Faults

namespace Csc3150.Mmap

open Outcome Program Search Transition

variable {Ip σ α : Type} {layer : FileLayer Ip σ} {start k k' : Kernel Ip σ} {labels : List Label}
  {pid : Pid}

/-! ### The inode of a file -/

/-- The files have the inodes they had. -/
def Kernel.SameInodes (k k' : Kernel Ip σ) : Prop := ∀ f, (k'.file f).ip = (k.file f).ip

namespace Kernel.SameInodes

variable {k₁ : Kernel Ip σ}

theorem refl (k : Kernel Ip σ) : k.SameInodes k := fun _ => rfl

theorem of_file (same : k.SameInodes k₁) (file : k'.file = k₁.file) : k.SameInodes k' := by
  intro f
  rw [file]
  exact same f

theorem filedup (same : k.SameInodes k₁) {f : Fp} (run : filedup f k₁ = .ok ((), k')) :
    k.SameInodes k' := by
  intro g
  rw [(filedup_ends.mp run).2, Kernel.setFile_file]
  by_cases here : g = f
  · subst here
    rw [Function.update_self]
    exact same g
  · rw [Function.update_of_ne here]
    exact same g

theorem fileclose (same : k.SameInodes k₁) {f : Fp} (run : fileclose layer f k₁ = .ok ((), k')) :
    k.SameInodes k' := by
  obtain ⟨-, file, fs, rfl, -, ip⟩ := fileclose_ends run
  intro g
  show (Function.update k₁.file f file g).ip = _
  by_cases here : g = f
  · subst here
    rw [Function.update_self, ip]
    exact same g
  · rw [Function.update_of_ne here]
    exact same g

theorem closeVma (same : k.SameInodes k₁) {i : Fin VMASIZE}
    (run : closeVma layer pid i k₁ = .ok ((), k')) : k.SameInodes k' := by
  obtain ⟨⟨⟨⟩, k₂⟩, closed, rest⟩ := bind_eq_ok.mp run
  rw [modifyProc_ends.mp rest]
  exact (same.fileclose closed).of_file rfl

theorem inSpace (same : k.SameInodes k₁) {x : VmProg α} {a : α}
    (run : inSpace pid x k₁ = .ok (a, k')) : k.SameInodes k' := by
  obtain ⟨s, -, rfl⟩ := inSpace_ends.mp run
  exact same.of_file rfl

end Kernel.SameInodes

theorem fork_sameInodes {r : Int} (run : fork layer pid k = .ok (r, k')) : k.SameInodes k' := by
  obtain ⟨found, k₁, allocated, rest⟩ := bind_ends.mp run
  have first : k.SameInodes k₁ := by
    rcases allocproc_ends allocated with ⟨-, rfl | ⟨np, ram, -, rfl⟩⟩ |
      ⟨np, frame, table, ram, -, -, rfl⟩
    · exact .refl _
    · exact (Kernel.SameInodes.refl k).of_file rfl
    · exact (Kernel.SameInodes.refl k).of_file rfl
  cases found with
  | none =>
    cases rest
    exact first
  | some np =>
    obtain ⟨copied, k₂, copy, rest⟩ := bind_ends.mp rest
    have second := first.inSpace copy
    cases copied with
    | false =>
      obtain ⟨⟨⟩, k₃, freed, rest⟩ := bind_ends.mp rest
      cases rest
      obtain ⟨ram, rfl⟩ := freeproc_ends freed
      exact second.of_file rfl
    | true =>
      obtain ⟨⟨⟩, k₃, sized, rest⟩ := bind_ends.mp rest
      rw [modifyProc_ends] at sized
      have third : k.SameInodes k₃ := second.of_file (sized ▸ rfl)
      obtain ⟨⟨⟩, k₄, files, rest⟩ := bind_ends.mp rest
      have fourth : Ensures ((List.finRange NOFILE).forM (forkFile pid np)) k₃
          fun _ k₄ => k.SameInodes k₄ := by
        refine Ensures.forM_invariant third fun fd _ k₄ same u k₅ turn => ?_
        rw [forkFile] at turn
        split at turn
        · cases turn
          exact same
        · obtain ⟨⟨⟨⟩, k₆⟩, dup, rest⟩ := bind_eq_ok.mp turn
          rw [modifyProc_ends.mp rest]
          exact (same.filedup dup).of_file rfl
      obtain ⟨⟨⟩, k₅, cwd, rest⟩ := bind_ends.mp rest
      rw [modifyProc_ends] at cwd
      have fifth : k.SameInodes k₅ := (fourth () k₄ files).of_file (cwd ▸ rfl)
      obtain ⟨⟨⟩, k₆, vmas, rest⟩ := bind_ends.mp rest
      have sixth : Ensures ((List.finRange VMASIZE).forM (forkVma pid np)) k₅
          fun _ k₆ => k.SameInodes k₆ := by
        refine Ensures.forM_invariant fifth fun i _ k₆ same u k₇ turn => ?_
        rw [forkVma] at turn
        dsimp only at turn
        split at turn
        · obtain ⟨⟨⟨⟩, k₈⟩, copied, dup⟩ := bind_eq_ok.mp turn
          rw [modifyProc_ends] at copied
          exact (same.of_file (copied ▸ rfl)).filedup dup
        · cases turn
          exact same
      obtain ⟨⟨⟩, k₇, state, rest⟩ := bind_ends.mp rest
      cases rest
      rw [modifyProc_ends] at state
      exact (sixth () k₆ vmas).of_file (state ▸ rfl)

theorem exit_sameInodes (run : exit layer pid k = .ok ((), k')) : k.SameInodes k' := by
  rw [exit] at run
  split at run
  · cases run
  · obtain ⟨⟨⟩, k₁, files, rest⟩ := bind_ends.mp run
    obtain ⟨⟨⟩, k₂, vmas, left⟩ := bind_ends.mp rest
    have first : Ensures ((List.finRange NOFILE).forM (exitFile layer pid)) k
        fun _ k₁ => k.SameInodes k₁ := by
      refine Ensures.forM_invariant (.refl k) fun fd _ k₃ same u k₄ turn => ?_
      rw [exitFile] at turn
      split at turn
      · cases turn
        exact same
      · obtain ⟨⟨⟨⟩, k₅⟩, closed, rest⟩ := bind_eq_ok.mp turn
        rw [modifyProc_ends.mp rest]
        exact (same.fileclose closed).of_file rfl
    have second : Ensures ((List.finRange VMASIZE).forM (exitVma layer pid)) k₁
        fun _ k₂ => k.SameInodes k₂ := by
      refine Ensures.forM_invariant (first () k₁ files) fun i _ k₃ same u k₄ turn => ?_
      rw [exitVma] at turn
      dsimp only at turn
      split at turn
      · obtain ⟨⟨⟨⟩, k₅⟩, unmapped, closed⟩ := bind_eq_ok.mp turn
        exact (same.inSpace unmapped).closeVma closed
      · cases turn
        exact same
    rw [modifyProc_ends.mp left]
    exact (second () k₂ vmas).of_file rfl

/-- No action changes the inode of a file. -/
theorem step_ip {label : Label} (step : k.Step layer label k') : k.SameInodes k' := by
  obtain ⟨-, r, run⟩ := step
  obtain ⟨pid, action⟩ := label
  cases action with
  | mmap args =>
    rcases sys_mmap_ends run with ⟨-, rfl⟩ | ⟨f, slot, assigned, v, -, -, -, -, -, referenced, rfl⟩
    · exact .refl _
    · have opened : k.SameInodes (k.setProc pid
          ((k.proc pid).setVma (Function.update (k.proc pid).vma slot v))) :=
        (Kernel.SameInodes.refl k).of_file rfl
      exact opened.filedup (filedup_ends.mpr ⟨referenced, rfl⟩)
  | munmap addr length =>
    rcases sys_munmap_ends run with ⟨-, -, rfl⟩ | ⟨-, fs, written, rfl, -⟩ |
      ⟨-, i, fs, written, s, -, unmaps⟩
    · exact .refl _
    · exact (Kernel.SameInodes.refl k).of_file rfl
    · have unmapped : k.SameInodes
          ({ k with fs := fs, written := written ++ k.written }.setSpace pid s) :=
        (Kernel.SameInodes.refl k).of_file rfl
      by_cases whole : (munmapRange addr.toNat length).1 = ((k.proc pid).vma i).addr ∧
          (munmapRange addr.toNat length).2 = ((k.proc pid).vma i).limit
      · exact unmapped.closeVma (unmaps.closes whole)
      · rw [unmaps.keeps whole]
        exact unmapped
  | access addr store =>
    obtain ⟨⟨⟩, k₁, run, rest⟩ := bind_ends.mp run
    cases rest
    obtain ⟨table, killed, ram, rfl⟩ := access_ends run
    exact (Kernel.SameInodes.refl k).of_file rfl
  | fork => exact fork_sameInodes run
  | exit =>
    obtain ⟨⟨⟩, k₁, run, rest⟩ := bind_ends.mp run
    cases rest
    exact exit_sameInodes run
  | reap =>
    obtain ⟨⟨⟩, k₁, run, rest⟩ := bind_ends.mp run
    cases rest
    obtain ⟨ram, rfl⟩ := freeproc_ends run
    exact (Kernel.SameInodes.refl k).of_file rfl

theorem run_ip (run : Run (Kernel.Step layer) k labels k') : k.SameInodes k' := by
  induction run with
  | nil k => exact .refl k
  | cons first _ ih => exact fun f => (ih f).trans (step_ip first f)

/-! ### The pages of a child -/

/-- No page from `low` up to the trapframe is mapped. -/
def Space.ClearFrom (low : Nat) (s : Space) : Prop :=
  ∀ vpn, low ≤ vpn → vpn < TRAPFRAME / PGSIZE → s.table.leaf vpn = none

section ClearFrom

variable {low : Nat}

theorem kalloc_clear : Keeps (Space.ClearFrom low) kalloc := by
  intro s here found s' run
  unfold kalloc at run
  split at run <;> cases run <;> exact here

theorem mapPage_leaf {vpn : Nat} {pte : Pte} {made : Bool} {s s' : Space}
    (run : mapPage vpn pte s = .ok (made, s')) : s'.table.leaf = s.table.leaf ∨
      s'.table.leaf = Function.update s.table.leaf vpn (some pte) := by
  rw [← s.walk_leaf vpn]
  unfold mapPage at run
  dsimp only at run
  split_ifs at run <;> cases run
  · exact Or.inr rfl
  · exact Or.inl rfl

theorem mapPages_clear {vpn count : Nat} {pte : Pte}
    (outside : ∀ i < count, vpn + i < low ∨ TRAPFRAME / PGSIZE ≤ vpn + i) :
    Keeps (Space.ClearFrom low) (mapPages vpn pte count) := by
  induction count generalizing vpn pte with
  | zero => exact .pure true
  | succ count ih =>
    refine .bind (fun s here made s' run other above below => ?_) fun made => .ite (ih ?_) (.pure false)
    · have away := outside 0 (Nat.succ_pos count)
      rw [Nat.add_zero] at away
      rcases mapPage_leaf run with same | update
      · rw [same]
        exact here other above below
      · rw [update, Function.update_of_ne (by omega)]
        exact here other above below
    · intro i inside
      rw [Nat.add_right_comm]
      exact outside (i + 1) (Nat.succ_lt_succ inside)

/-- Pages from the trapframe on. -/
theorem mappages_clear_high {va size : Nat} {pte : Pte} (high : TRAPFRAME ≤ va) :
    Keeps (Space.ClearFrom low) (mappages va size pte) := by
  refine mapPages_clear fun i _ => Or.inr ?_
  rw [PGROUNDDOWN_div]
  exact (Nat.div_le_div_right high).trans (Nat.le_add_right _ i)

/-- One page below `low`. -/
theorem mappages_clear_low {vpn : Nat} (pte : Pte) (below : vpn < low)
    (user : vpn < TRAPFRAME / PGSIZE) :
    Keeps (Space.ClearFrom low) (mappages (vpn * PGSIZE) PGSIZE pte) := by
  have small : vpn * PGSIZE < TRAPFRAME := by
    unfold TRAPFRAME TRAMPOLINE MAXVA PGSIZE at *
    omega
  rw [mappages_eq small, if_pos (Nat.mul_mod_left _ _), Nat.mul_div_cancel _ PGSIZE_pos]
  refine mapPages_clear fun i one => Or.inl ?_
  rwa [Nat.lt_one_iff.mp one, Nat.add_zero]

theorem unmapPage_clear (do_free : Bool) (vpn : Nat) :
    Keeps (Space.ClearFrom low) (unmapPage do_free vpn) := by
  intro s here a s' run other above below
  rw [unmapPage_leaf run]
  by_cases same : other = vpn
  · rw [same, Function.update_self]
  · rw [Function.update_of_ne same, here other above below]

theorem uvmunmap_clear (va npages : Nat) (do_free : Bool) :
    Keeps (Space.ClearFrom low) (uvmunmap va npages do_free) :=
  .ite (.throw _) (.forM fun vpn _ => unmapPage_clear do_free vpn)

/-- A new page table maps the trampoline and the trapframe only. -/
theorem proc_pagetable_clear (trapframe : Nat) (s : Space) :
    Ensures (proc_pagetable trapframe) s fun made s' => made = true → s'.ClearFrom 0 := by
  have any : ∀ {β : Type} (x : VmProg β) (s : Space), Ensures x s fun _ _ => True :=
    fun _ _ _ _ _ => trivial
  refine (any kalloc s).bind fun root s₁ _ => ?_
  cases root with
  | none => exact .pure nofun
  | some root =>
    have start : Ensures (fun s => .ok ((), { s with table := PageTable.null.addPage ⟨2, 0, root⟩ }) :
        VmProg Unit) s₁ fun _ s₂ => s₂.ClearFrom 0 := by
      rintro _ s₂ run
      cases run
      exact fun _ _ _ => rfl
    refine start.bind fun _ s₂ here => ?_
    refine (mappages_clear_high (by decide) s₂ here).bind fun first s₃ there => .ite (fun _ => ?_) fun _ => ?_
    · refine (mappages_clear_high le_rfl s₃ there).bind fun second s₄ last => ?_
      refine .ite (fun _ => .pure fun _ => last) fun _ => ?_
      exact (any _ s₄).bind fun _ s₅ _ => (any _ s₅).bind fun _ _ _ => .pure nofun
    · exact (any _ s₃).bind fun _ _ _ => .pure nofun

theorem copyPages_clear {old : PageTable} {pages : List Nat}
    (below : ∀ vpn ∈ pages, vpn < low ∧ vpn < TRAPFRAME / PGSIZE) :
    Keeps (Space.ClearFrom low) (copyPages old pages) := by
  induction pages with
  | nil => exact .pure none
  | cons vpn rest ih =>
    have here := below vpn List.mem_cons_self
    have later := ih fun other member => below other (List.mem_cons_of_mem _ member)
    unfold copyPages
    refine .ite (.throw _) ?_
    cases old.leaf vpn with
    | none => exact later
    | some pte =>
      refine .bind kalloc_clear fun mem => ?_
      cases mem with
      | none => exact .pure _
      | some mem =>
        refine .bind (fun s clear _ s' run => ?_) fun _ =>
          .bind (mappages_clear_low _ here.1 here.2) fun mapped => .ite later ?_
        · cases run
          exact clear
        · refine .bind (fun s clear _ s' run => ?_) fun _ => .pure _
          cases run
          exact clear

/-- `uvmcopy` maps pages below `sz` only. -/
theorem uvmcopy_clear (old : PageTable) {sz : Nat} (sized : PGROUNDUP sz ≤ TRAPFRAME) :
    Keeps (Space.ClearFrom (PGROUNDUP sz / PGSIZE)) (uvmcopy old sz) := by
  refine .bind (copyPages_clear fun vpn member => ?_) fun failed => ?_
  · have inside := (mem_pagesBetween.mp member).2
    exact ⟨inside, Nat.lt_of_lt_of_le inside (Nat.div_le_div_right sized)⟩
  · cases failed with
    | none => exact .pure true
    | some vpn => exact .bind (uvmunmap_clear _ _ _) fun _ => .pure false

end ClearFrom

/-! ### The first load of a child -/

/-- The byte at an address whose page is resident. -/
def Kernel.byteAt (k : Kernel Ip σ) (pid : Pid) (a : Nat) : Option UInt8 :=
  ((k.proc pid).pagetable.leaf (a / PGSIZE)).map fun pte => k.ram.page pte.frame (a % PGSIZE)

/-- The byte of a file that a region maps to an address: the page of the address as `readi` fills it
from its start, with zeros after the end of the file. -/
def Vma.fileByte (v : Vma) (layer : FileLayer Ip σ) (fs : σ) (ip : Ip) (a : Nat) : UInt8 :=
  pageOf (layer.readi fs ip (v.fileOffset (PGROUNDDOWN a)) (UInt32.ofNat PGSIZE)).2 (a % PGSIZE)

theorem grow_page (s : Space) (level vpn : Nat) : (s.grow level vpn).ram.page = s.ram.page := by
  unfold Space.grow
  split
  · rfl
  · split <;> rfl

/-- Making an entry changes no page of memory. -/
theorem mapPage_page {vpn : Nat} {pte : Pte} {made : Bool} {s s' : Space}
    (run : mapPage vpn pte s = .ok (made, s')) : s'.ram.page = s.ram.page := by
  have walk : (s.walk vpn).ram.page = s.ram.page := by
    unfold Space.walk
    dsimp only
    split
    · rw [grow_page, grow_page]
    · exact grow_page s 1 vpn
  rw [mapPage] at run
  dsimp only at run
  split_ifs at run <;> cases run <;> exact walk

/-- A fault at the start of a page that is not mapped fills the page from the file. -/
theorem pageFault_fills {addr : Nat} {i : Fin VMASIZE} {ip : Ip}
    (reads : ∀ fs ip off n, 0 ≤ (layer.readi fs ip off n).1)
    (placed : (k.proc pid).vma.Placed) (found : VmaTable.find (k.proc pid).vma addr = some i)
    (aligned : addr % PGSIZE = 0) (absent : (k.proc pid).pagetable.leaf (addr / PGSIZE) = none)
    (inode : (k.file ((k.proc pid).vma i).file).ip = some ip) (referenced : 1 ≤ layer.ref k.fs ip)
    (memory : (k.proc pid).pagetable.missing (addr / PGSIZE) < k.ram.free.length) :
    ∃ k', pageFault layer pid addr k = .ok ((), k') ∧ (k'.proc pid).killed = (k.proc pid).killed ∧
      (∃ pte, (k'.proc pid).pagetable.leaf (addr / PGSIZE) = some pte ∧
        pte.permits false = ((k.proc pid).vma i).isReadable) ∧
      ∀ a, a / PGSIZE = addr / PGSIZE →
        k'.byteAt pid a = some (((k.proc pid).vma i).fileByte layer k.fs ip a) := by
  cases free : k.ram.free with
  | nil =>
    rw [free] at memory
    cases memory
  | cons frame rest =>
    have fault := pageFault_maps found free inode referenced reads
    have covers := (VmaTable.find_eq_some_iff.mp found).1
    have used : ((k.proc pid).vma i).used = true := by
      rw [Vma.contains, Bool.and_eq_true, Bool.and_eq_true] at covers
      exact covers.1.1
    have low : addr < TRAPFRAME :=
      lt_of_lt_of_le ((placed i used).contains_iff.mp covers).2.2 (placed i used).top
    have start : ∀ a, a / PGSIZE = addr / PGSIZE → PGROUNDDOWN a = addr := by
      intro a same
      unfold PGROUNDDOWN
      rw [same]
      exact Nat.div_mul_cancel (Nat.dvd_of_mod_eq_zero aligned)
    have inRange : addr / PGSIZE * PGSIZE < MAXVA := by
      have next := page_low low
      rw [Nat.add_mul] at next
      omega
    have enough : (k.proc pid).pagetable.missing (addr / PGSIZE) ≤ rest.length := by
      rw [free, List.length_cons] at memory
      omega
    generalize filled : (layer.readi k.fs ip (((k.proc pid).vma i).fileOffset addr)
      (UInt32.ofNat PGSIZE)).2 = bytes at fault
    obtain ⟨s', mapped, leaf⟩ := mapPage_maps (((k.proc pid).vma i).entry frame) inRange
      (show ((k.lentTo frame rest bytes).space pid).table.leaf _ = none from absent) enough
    have maps : mappages addr PGSIZE (((k.proc pid).vma i).entry frame)
        ((k.lentTo frame rest bytes).space pid) = .ok (true, s') := by
      rw [mappages_eq low, if_pos aligned, mapPages, bind_run mapped]
      rfl
    have here : s'.table.leaf (addr / PGSIZE) = some (((k.proc pid).vma i).entry frame) := by
      rw [leaf, Function.update_self]
    have table : (((k.lentTo frame rest bytes).setSpace pid s').proc pid) =
        (k.proc pid).setTable s'.table := Function.update_self _ _ _
    rw [bind_of_ok (inSpace_ends.mpr ⟨s', maps, rfl⟩)] at fault
    refine ⟨_, fault, ?_, ⟨((k.proc pid).vma i).entry frame, ?_, ?_⟩, fun a same => ?_⟩
    · rw [table]
      rfl
    · rw [table]
      exact here
    · show (true && ((k.proc pid).vma i).isReadable && (!false || _)) = _
      rw [Bool.true_and, Bool.not_false, Bool.true_or, Bool.and_true]
    · unfold Kernel.byteAt Vma.fileByte
      rw [same, table, start a same, filled]
      show (s'.table.leaf (addr / PGSIZE)).map (fun pte => s'.ram.page pte.frame (a % PGSIZE)) = _
      rw [here, mapPage_page mapped]
      show some (Function.update k.ram.page frame (pageOf bytes) frame (a % PGSIZE)) = _
      rw [Function.update_self]

/-- `allocproc` makes a page table without pages below the trapframe. -/
theorem allocproc_clear {np : Pid} (run : allocproc k = .ok (some np, k')) :
    (k'.space np).ClearFrom 0 := by
  rw [allocproc] at run
  split at run
  · cases run
  · next np' _ =>
    obtain ⟨⟨trapframe, k₁⟩, -, rest⟩ := bind_eq_ok.mp run
    cases trapframe with
    | none =>
      obtain ⟨⟨⟨⟩, k₂⟩, -, rest⟩ := bind_eq_ok.mp rest
      cases rest
    | some frame =>
      obtain ⟨⟨⟨⟩, k₂⟩, -, rest⟩ := bind_eq_ok.mp rest
      obtain ⟨⟨made, k₃⟩, table, rest⟩ := bind_eq_ok.mp rest
      dsimp only at rest
      split at rest
      · next is_made =>
        cases rest
        obtain ⟨s, ends, rfl⟩ := inSpace_ends.mp table
        intro vpn above below
        rw [Kernel.space, Kernel.setSpace_proc, Function.update_self, Proc.setTable_pagetable]
        exact proc_pagetable_clear frame _ made s ends is_made vpn above below
      · obtain ⟨⟨⟨⟩, k₄⟩, -, rest⟩ := bind_eq_ok.mp rest
        cases rest

/-- The child of a `fork` has no page above the heap of its parent, the trapframe aside. -/
theorem fork_clear {np : Pid} (running : (k.proc pid).state = .runnable)
    (sized : PGROUNDUP (k.proc pid).sz ≤ TRAPFRAME) (run : fork layer pid k = .ok (np.val, k')) :
    (k'.space np).ClearFrom (PGROUNDUP (k.proc pid).sz / PGSIZE) := by
  obtain ⟨found, k₁, allocated, rest⟩ := bind_ends.mp run
  cases found with
  | none =>
    have failed : (-1 : Int) = np.val := (Prod.mk.inj (Except.ok.inj rest)).1
    omega
  | some np' =>
    have start := allocproc_clear allocated
    rcases allocproc_ends allocated with ⟨none, -⟩ | ⟨slot, frame, table, ram, is, unused, made⟩
    · cases none
    · cases is
      have other : np' ≠ pid := by
        rintro rfl
        rw [running] at unused
        cases unused
      have parent : k₁.proc pid = k.proc pid := by
        rw [made]
        exact Function.update_of_ne other.symm _ _
      obtain ⟨copied, k₂, copy, rest⟩ := bind_ends.mp rest
      obtain ⟨s, ends, rfl⟩ := inSpace_ends.mp copy
      rw [parent] at ends
      have clear := uvmcopy_clear (k.proc pid).pagetable sized _
        (fun vpn _ below => start vpn (Nat.zero_le vpn) below) copied s ends
      split at rest
      · obtain ⟨⟨⟩, k₃, sized', rest⟩ := bind_ends.mp rest
        obtain ⟨⟨⟩, k₄, files, rest⟩ := bind_ends.mp rest
        obtain ⟨ofile, procs, -⟩ := forkFiles_ends () k₄ files
        obtain ⟨⟨⟩, k₅, cwd, rest⟩ := bind_ends.mp rest
        obtain ⟨⟨⟩, k₆, vmas, rest⟩ := bind_ends.mp rest
        obtain ⟨procs', -⟩ := forkVmas_ends other () k₆ vmas
        obtain ⟨⟨⟩, k₇, started, rest⟩ := bind_ends.mp rest
        rw [modifyProc_ends] at sized' cwd started
        have same : np = np' ∧ k₇ = k' := by
          have both := Prod.mk.inj (Except.ok.inj rest)
          exact ⟨Fin.ext (by omega), both.2⟩
        obtain ⟨rfl, rfl⟩ := same
        have child : (k₇.proc np).pagetable = s.table := by
          simp only [started, procs', cwd, procs, sized', Kernel.setProc_proc, Kernel.setSpace_proc,
            Function.update_self, Proc.setVma_pagetable, Proc.setFiles_pagetable,
            Proc.setTable_pagetable]
        intro vpn above below
        rw [Kernel.space, child]
        exact clear vpn above below
      · obtain ⟨⟨⟩, k₃, -, rest⟩ := bind_ends.mp rest
        have failed : (-1 : Int) = np.val := (Prod.mk.inj (Except.ok.inj rest)).1
        omega

/-- The child of a `fork` has the regions of its parent and none of their pages. -/
structure Kernel.Forked (k : Kernel Ip σ) (pid np : Pid) (k' : Kernel Ip σ) : Prop where
  used : ∀ i, ((k'.proc np).vma i).used = ((k.proc pid).vma i).used
  vma : ∀ i, ((k.proc pid).vma i).used = true → (k'.proc np).vma i = (k.proc pid).vma i
  absent : ∀ i, ((k.proc pid).vma i).used = true → ∀ a ∈ ((k.proc pid).vma i).range,
    k'.byteAt np a = none

/-- `fork` of a process whose heap lies below the regions. -/
theorem forked_of_run {np : Pid} (placed : k.Placed) (running : (k.proc pid).state = .runnable)
    (heap : (k.proc pid).sz ≤ 2 ^ 37) (run : fork layer pid k = .ok (np.val, k')) :
    k.Forked pid np k' := by
  have child : ∀ i, (k'.proc np).vma i = childTable (k.proc pid).vma (k.proc np).vma i ∧
      ((k.proc np).vma i).used = false := by
    rcases fork_procs running run with ⟨failed, -⟩ |
      ⟨np', unused, ⟨failed, -⟩ | ⟨result, child, procs, -, -, vma⟩⟩
    · omega
    · omega
    · obtain rfl : np = np' := Fin.ext (by omega)
      intro i
      refine ⟨by rw [procs, Function.update_self, vma], placed.idle.empty ?_ i⟩
      rw [unused]
      exact ProcState.noConfusion
  refine ⟨fun i => ?_, fun i used => ?_, fun i used a inside => ?_⟩
  · rw [(child i).1, childTable]
    cases used : ((k.proc pid).vma i).used with
    | true => rw [if_pos rfl, used]
    | false => rw [if_neg Bool.false_ne_true, (child i).2]
  · rw [(child i).1, childTable, if_pos used]
  · have region := placed.tables pid i used
    obtain ⟨lower, upper⟩ := inside
    have bottom := region.bottom
    have top := region.top
    have slot : i.val < 16 := i.isLt
    have rounded : PGROUNDUP (k.proc pid).sz ≤ 2 ^ 37 := by
      unfold PGROUNDUP PGROUNDDOWN word PGSIZE
      omega
    have clear := fork_clear running (rounded.trans (by decide)) run (a / PGSIZE) ?_ ?_
    · rw [Kernel.byteAt]
      exact congrArg _ clear
    · refine Nat.div_le_div_right (rounded.trans ?_)
      unfold TRAPFRAME TRAMPOLINE MAXVA PGSIZE at bottom
      omega
    · unfold TRAPFRAME TRAMPOLINE MAXVA PGSIZE at *
      omega

/-- **What a child sees in the mappings of its parent.** The child of a `fork` has the regions of its
parent and none of their pages. Later, while it still has a region that is the first to cover an
address at the start of a page, has not got that page, and the file is as it was at the `fork`: with
memory for the page, a load from the address goes through and gives the page the bytes of the file, so
that an address of it has the byte that it had for the parent exactly when that was the byte of the
file. -/
theorem child_loads_file (reads : ∀ fs ip off n, 0 ≤ (layer.readi fs ip off n).1)
    (boot : start.NoRegions) (run : Run (Kernel.Step layer) start labels k) {np : Pid}
    {k₁ : Kernel Ip σ} (running : (k.proc pid).state = .runnable)
    (alive : (k.proc pid).killed = false) (heap : (k.proc pid).sz ≤ 2 ^ 37)
    (forked : fork layer pid k = .ok (np.val, k₁)) :
    k.Forked pid np k₁ ∧
    ∀ {k₂ : Kernel Ip σ} {labels' : List Label} {i : Fin VMASIZE} {addr : Nat} {ip : Ip},
      Run (Kernel.Step layer) k₁ labels' k₂ → ((k.proc pid).vma i).used = true →
      (k.file ((k.proc pid).vma i).file).ip = some ip → 1 ≤ layer.ref k₂.fs ip →
      (k₂.proc np).vma i = (k₁.proc np).vma i → VmaTable.find (k₂.proc np).vma addr = some i →
      addr % PGSIZE = 0 → (k₂.proc np).pagetable.leaf (addr / PGSIZE) = none →
      (k₂.proc np).pagetable.missing (addr / PGSIZE) < k₂.ram.free.length →
      layer.readi k₂.fs ip = layer.readi k.fs ip →
      ∃ k₃, access layer np addr none k₂ = .ok ((), k₃) ∧
        (k₃.proc np).killed = (k₂.proc np).killed ∧
        (∃ pte, (k₃.proc np).pagetable.leaf (addr / PGSIZE) = some pte ∧
          pte.permits false = ((k.proc pid).vma i).isReadable) ∧
        ∀ a, a / PGSIZE = addr / PGSIZE →
          k₃.byteAt np a = some (((k.proc pid).vma i).fileByte layer k.fs ip a) ∧
          (k₃.byteAt np a = k.byteAt pid a ↔
            k.byteAt pid a = some (((k.proc pid).vma i).fileByte layer k.fs ip a)) := by
  have inherits := forked_of_run (placed_of_run boot run) running heap forked
  refine ⟨inherits, ?_⟩
  intro k₂ labels' i addr ip later used inode referenced kept found aligned absent memory unwritten
  have region : (k₂.proc np).vma i = (k.proc pid).vma i := kept.trans (inherits.vma i used)
  have forks : k.Step layer ⟨pid, .fork⟩ k₁ := ⟨⟨running, alive⟩, np.val, forked⟩
  have inodes : k.SameInodes k₂ := run_ip (.cons forks later)
  have tables := (placed_of_run boot (run.append (.cons forks later))).tables np
  obtain ⟨k₃, fault, killed, ⟨pte, mapped, permits⟩, bytes⟩ := pageFault_fills reads tables found
    aligned absent (by rw [region, inodes, inode]) referenced memory
  have loads : access layer np addr none k₂ = .ok ((), k₃) := by
    rw [access, absent]
    exact fault
  refine ⟨k₃, loads, killed, ⟨pte, mapped, by rw [permits, region]⟩, fun a same => ?_⟩
  have byte : k₃.byteAt np a = some (((k.proc pid).vma i).fileByte layer k.fs ip a) := by
    rw [bytes a same, region]
    unfold Vma.fileByte
    rw [unwritten]
  refine ⟨byte, ?_⟩
  rw [byte]
  exact eq_comm

theorem secondPid_lt : 2 < NPROC := by decide

/-- The slot of the first child of process 1. -/
def secondPid : Pid := ⟨2, secondPid_lt⟩

/-- The kernel after a `fork` of process 1 that made `secondPid`. -/
def forkFirst (k : Kernel Unit (List UInt8)) : Option (Kernel Unit (List UInt8)) :=
  match fork oneFile firstPid k with
  | .ok (r, k₁) => if r = secondPid.val then some k₁ else none
  | .error _ => none

theorem forkFirst_ends {k k₁ : Kernel Unit (List UInt8)} (forked : forkFirst k = some k₁) :
    fork oneFile firstPid k = .ok (secondPid.val, k₁) := by
  unfold forkFirst at forked
  split at forked
  · next r k₂ run =>
    split_ifs at forked with child
    cases forked
    rw [run, child]
  · cases forked

/-- A child that loads from a page its parent has only loaded from. -/
theorem child_loads_file_small : ∃ k k₁ k₃,
    Run (Kernel.Step oneFile) (smallKernel .inode (some ()))
      [mapPagesOf 4096 3 2, ⟨firstPid, .access topPage none⟩] k ∧
    fork oneFile firstPid k = .ok (secondPid.val, k₁) ∧ k.Forked firstPid secondPid k₁ ∧
    k.byteAt firstPid topPage.toNat = some 104 ∧
    access oneFile secondPid topPage.toNat none k₁ = .ok ((), k₃) ∧
    k₃.byteAt secondPid topPage.toNat = some 104 := by
  have replayed : (replay oneFile (fun _ _ => true)
      [mapPagesOf 4096 3 2, ⟨firstPid, .access topPage none⟩]
      (smallKernel .inode (some ()))).any fun k => (forkFirst k).any fun k₁ =>
        decide ((k.proc firstPid).state = .runnable) && decide ((k.proc firstPid).killed = false) &&
        decide ((k.proc firstPid).sz ≤ 2 ^ 37) && ((k.proc firstPid).vma ⟨0, by decide⟩).used &&
        decide ((k.file ((k.proc firstPid).vma ⟨0, by decide⟩).file).ip = some ()) &&
        VmaTable.find (k₁.proc secondPid).vma topPage.toNat == some ⟨0, by decide⟩ &&
        decide ((k₁.proc secondPid).pagetable.leaf (topPage.toNat / PGSIZE) = none) &&
        decide ((k₁.proc secondPid).pagetable.missing (topPage.toNat / PGSIZE) <
          k₁.ram.free.length) &&
        k₁.fs == k.fs && k.byteAt firstPid topPage.toNat == some 104 &&
        ((k.proc firstPid).vma ⟨0, by decide⟩).fileByte oneFile k.fs () topPage.toNat == 104 := by
    decide +kernel
  rw [Option.any_eq_true] at replayed
  obtain ⟨k, reached, checks⟩ := replayed
  rw [Option.any_eq_true] at checks
  obtain ⟨k₁, forked, checks⟩ := checks
  simp only [Bool.and_eq_true, decide_eq_true_eq, beq_iff_eq] at checks
  obtain ⟨⟨⟨⟨⟨⟨⟨⟨⟨⟨running, alive⟩, heap⟩, used⟩, inode⟩, found⟩, absent⟩, memory⟩, same⟩, parent⟩,
    byte⟩ := checks
  have run := (run_of_replay (fun _ _ => True) (fun _ _ _ => trivial) reached).mono
    fun _ _ _ => And.left
  obtain ⟨inherits, loads⟩ := child_loads_file (fun _ _ _ _ => Int.natCast_nonneg _)
    (smallKernel_noRegions _ _) run running alive heap (forkFirst_ends forked)
  obtain ⟨k₃, loads, -, -, bytes⟩ := loads (.nil k₁) used inode le_rfl rfl found (by decide) absent
    memory (by rw [same])
  refine ⟨k, k₁, k₃, run, forkFirst_ends forked, inherits, parent, loads, ?_⟩
  rw [(bytes _ rfl).1, byte]

/-- **A child misses what its parent stored.** A private page is stored to, which faults first and then
goes through; after a `fork` the parent has the stored byte there, and the first load of the child
gives it that of the file. -/
theorem child_misses_store : ∃ k k₁ k₃,
    Run (Kernel.Step oneFile) (smallKernel .inode (some ()))
      [mapPagesOf 4096 3 2, ⟨firstPid, .access topPage (some 7)⟩,
        ⟨firstPid, .access topPage (some 7)⟩] k ∧
    fork oneFile firstPid k = .ok (secondPid.val, k₁) ∧
    k.byteAt firstPid topPage.toNat = some 7 ∧
    access oneFile secondPid topPage.toNat none k₁ = .ok ((), k₃) ∧ k₃.fs = k.fs ∧
    k₃.byteAt secondPid topPage.toNat = some 104 := by
  have replayed : (replay oneFile (fun _ _ => true)
      [mapPagesOf 4096 3 2, ⟨firstPid, .access topPage (some 7)⟩,
        ⟨firstPid, .access topPage (some 7)⟩]
      (smallKernel .inode (some ()))).any fun k => (forkFirst k).any fun k₁ =>
        k.byteAt firstPid topPage.toNat == some 7 &&
        match access oneFile secondPid topPage.toNat none k₁ with
        | .ok ((), k₃) => k₃.fs == k.fs && k₃.byteAt secondPid topPage.toNat == some 104
        | .error _ => false := by
    decide +kernel
  rw [Option.any_eq_true] at replayed
  obtain ⟨k, reached, checks⟩ := replayed
  rw [Option.any_eq_true] at checks
  obtain ⟨k₁, forked, checks⟩ := checks
  rw [Bool.and_eq_true, beq_iff_eq] at checks
  obtain ⟨stored, load⟩ := checks
  split at load
  · next k₃ loads =>
    rw [Bool.and_eq_true, beq_iff_eq, beq_iff_eq] at load
    exact ⟨k, k₁, k₃, (run_of_replay (fun _ _ => True) (fun _ _ _ => trivial) reached).mono
      fun _ _ _ => And.left, forkFirst_ends forked, stored, loads, load.1, load.2⟩
  · cases load

end Csc3150.Mmap
