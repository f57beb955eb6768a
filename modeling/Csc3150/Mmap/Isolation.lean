/-
**Processes are isolated.**

A user reaches memory through the entries below the trapframe, and no frame is behind two of them.
So what a process stores is seen by itself only, and what the kernel fills was free.

* `step_spares`, `step_others` — an action leaves the pages and the entry of another process alone;
* `reachable_page_own` — the page behind an entry that a user can reach is nowhere else;
* `isolation` — the memory of a process is what it was, whatever the others do;
* `isolation_needs_starts` — a fault inside a page breaks it.
-/

import Csc3150.Mmap.Conservation
import Csc3150.Mmap.Guarding

namespace Csc3150.Mmap

open ByteBuffer Outcome Program Search Transition

variable {Ip σ : Type} {layer : FileLayer Ip σ} {k k' : Kernel Ip σ} {pid q : Pid}
  {page : Nat → Buffer}

/-! ### Steps -/

/-- The frames of a process have kept their contents. -/
def Kernel.Spares (k k' : Kernel Ip σ) (q : Pid) : Prop :=
  ∀ frame ∈ (k.proc q).frames, k'.ram.page frame = k.ram.page frame

theorem spares_of_kept (kept : k'.Kept k.ram.page) (q : Pid) : k.Spares k' q :=
  fun frame _ => congrFun kept.1 frame

/-- Two processes have no frame in common, and the frames of a process are not free. -/
theorem frames_apart {frame : Nat} (distinct : k.frames.Nodup) (other : q ≠ pid)
    (own : frame ∈ (k.proc q).frames) : frame ∉ k.ram.free ∧ frame ∉ (k.proc pid).frames := by
  rw [frames_split k pid, Multiset.nodup_add] at distinct
  have elsewhere : frame ∈ ∑ q ∈ Finset.univ.erase pid, (k.proc q).frames :=
    Multiset.mem_sum.mpr ⟨q, Finset.mem_erase.mpr ⟨other, Finset.mem_univ q⟩, own⟩
  have away := fun here => Multiset.disjoint_left.mp distinct.2.2 here elsewhere
  exact ⟨fun member => away (Multiset.mem_add.mpr (Or.inl (Multiset.mem_coe.mpr member))),
    fun member => away (Multiset.mem_add.mpr (Or.inr member))⟩

/-- The frame of an entry below the trapframe is a frame of its process. -/
theorem mem_frames {vpn : Nat} {pte : Pte} (user : vpn ∈ userPages)
    (present : (k.proc q).pagetable.leaf vpn = some pte) : pte.frame ∈ (k.proc q).frames := by
  have here : pte.frame ∈ userFrames (k.proc q).pagetable.leaf :=
    Multiset.mem_sum.mpr ⟨vpn, user, by rw [present]; exact Multiset.mem_singleton_self _⟩
  exact Multiset.mem_add.mpr (Or.inr (Multiset.mem_add.mpr (Or.inr here)))

theorem space_apart {frame : Nat} (distinct : k.frames.Nodup) (other : q ≠ pid)
    (own : frame ∈ (k.proc q).frames) : frame ∉ (k.space pid).frames := by
  obtain ⟨occupied, foreign⟩ := frames_apart distinct other own
  intro member
  rcases Multiset.mem_add.mp member with free | table
  · exact occupied (Multiset.mem_coe.mp free)
  · exact foreign (Multiset.mem_add.mpr (Or.inr table))

/-- A page that was free is filled. -/
theorem pageFault_spares {addr : Nat} (guarded : k.Guarded) (distinct : k.frames.Nodup)
    (placed : (k.proc pid).vma.Placed) (aligned : addr % PGSIZE = 0)
    (run : pageFault layer pid addr k = .ok ((), k')) :
    k'.Guarded ∧ ∀ q, q ≠ pid → k.Spares k' q := by
  cases found : VmaTable.find (k.proc pid).vma addr with
  | none =>
    rw [pageFault, found] at run
    cases run
  | some i =>
    cases free : k.ram.free with
    | nil =>
      rw [pageFault_exhausted found free] at run
      have kept := setkilled_kept k ⟨rfl, guarded⟩ () k' run
      exact ⟨kept.2, fun q _ => spares_of_kept kept q⟩
    | cons frame rest =>
      rw [pageFault, found] at run
      dsimp only at run
      rw [bind_of_ok (lend_ends free)] at run
      dsimp only at run
      have kept : ∃ bytes, k'.Kept (Function.update k.ram.page frame bytes) := by
        obtain ⟨ip, -, run⟩ := bind_eq_ok.mp run
        obtain ⟨bytes, is⟩ : ∃ bytes, bytes = (layer.readi k.fs ip
          (((k.proc pid).vma i).fileOffset addr) (UInt32.ofNat PGSIZE)).2 := ⟨_, rfl⟩
        have start : (k.lentTo frame rest bytes).Kept
            (Function.update k.ram.page frame (pageOf bytes)) := ⟨rfl, guarded⟩
        refine ⟨pageOf bytes, ?_⟩
        subst is
        split at run
        · obtain ⟨⟨⟨⟩, k₁⟩, freed, killed⟩ := bind_eq_ok.mp run
          have first := inSpace_kept (kfree_kept frame) _ start () k₁ freed
          exact setkilled_kept k₁ first () k' killed
        · obtain ⟨⟨mapped, k₁⟩, maps, run⟩ := bind_eq_ok.mp run
          have first := inSpace_kept (mappages_user_kept _ (placed.find_low found) aligned)
            _ start mapped k₁ maps
          split at run
          · cases run
            exact first
          · obtain ⟨⟨⟨⟩, k₂⟩, freed, killed⟩ := bind_eq_ok.mp run
            have second := inSpace_kept (kfree_kept frame) k₁ first () k₂ freed
            exact setkilled_kept k₂ second () k' killed
      obtain ⟨bytes, kept⟩ := kept
      refine ⟨kept.2, fun q other mine own => ?_⟩
      have away : mine ≠ frame := by
        rintro rfl
        refine (frames_apart distinct other own).1 ?_
        rw [free]
        exact List.mem_cons_self
      rw [kept.1, Function.update_of_ne away]

theorem access_spares {addr : Nat} {store : Option UInt8} (guarded : k.Guarded)
    (distinct : k.frames.Nodup) (placed : (k.proc pid).vma.Placed)
    (aligned : addr % PGSIZE = 0 ∨ ∃ pte, (k.proc pid).pagetable.leaf (addr / PGSIZE) = some pte ∧
      pte.permits store.isSome = true) (run : access layer pid addr store k = .ok ((), k')) :
    k'.Guarded ∧ ∀ q, q ≠ pid → k.Spares k' q := by
  have faults : (∀ pte, (k.proc pid).pagetable.leaf (addr / PGSIZE) = some pte →
      pte.permits store.isSome ≠ true) → pageFault layer pid addr k = .ok ((), k') →
      k'.Guarded ∧ ∀ q, q ≠ pid → k.Spares k' q := by
    intro denied fault
    rcases aligned with aligned | ⟨pte, present, permits⟩
    · exact pageFault_spares guarded distinct placed aligned fault
    · exact absurd permits (denied pte present)
  unfold access at run
  split at run
  · next absent => exact faults (fun pte present => by rw [absent] at present; cases present) run
  · next pte present =>
    split at run
    · next permits =>
      split at run <;> cases run
      · exact ⟨guarded, fun _ _ _ _ => rfl⟩
      · refine ⟨guarded, fun q other frame own => Function.update_of_ne ?_ _ _⟩
        rintro rfl
        simp only [Pte.permits, Bool.and_eq_true] at permits
        have user := guarded pid _ pte present permits.1.1
        exact (frames_apart distinct other own).2 (mem_frames user present)
    · next denied =>
      refine faults (fun pte' present' => ?_) run
      cases present.symm.trans present'
      exact denied

theorem sys_mmap_kept {args : MmapArgs} :
    Keeps (Kernel.Kept page) (sys_mmap pid args : KProg Ip σ Int) := by
  intro k here r k' run
  rcases sys_mmap_ends run with ⟨-, rfl⟩ | ⟨f, slot, assigned, v, -, -, -, -, -, -, rfl⟩
  · exact here
  · exact ⟨here.1, guarded_of_update here.2 rfl (here.2 pid)⟩

theorem sys_munmap_kept {addr : Nat} {length : Int32} :
    Keeps (Kernel.Kept page) (sys_munmap layer pid addr length : KProg Ip σ Int) := by
  intro k here r k' run
  rcases sys_munmap_ends run with ⟨-, -, rfl⟩ | ⟨-, fs, written, rfl, -⟩ |
    ⟨-, i, fs, written, s, -, unmaps⟩
  · exact here
  · exact here
  · obtain ⟨procs, ram, -⟩ := unmaps.proc
    have kept := uvmunmap_kept _ _ _ (k.space pid) ⟨here.1, here.2 pid⟩ () s unmaps.unmaps
    exact ⟨ram ▸ kept.1, guarded_of_update here.2 procs kept.2⟩

/-- Pages that were free are filled. -/
theorem fork_spares {r : Int} (guarded : k.Guarded) (distinct : k.frames.Nodup) (vacant : k.Vacant)
    (sized : ∀ q, (k.proc q).sz ≤ TRAPFRAME) (run : fork layer pid k = .ok (r, k')) :
    k'.Guarded ∧ ∀ q, (k.proc q).state ≠ .unused → k.Spares k' q := by
  obtain ⟨found, k₁, allocated, rest⟩ := bind_ends.mp run
  have first := allocproc_kept k ⟨rfl, guarded⟩ found k₁ allocated
  have frames := allocproc_frames vacant sized allocated
  cases found with
  | none =>
    cases rest
    exact ⟨first.2, fun q _ => spares_of_kept first q⟩
  | some np =>
    have child : (∀ q, (k.proc q).state ≠ .unused → q ≠ np ∧ k₁.proc q = k.proc q) ∧
        (k₁.proc pid).sz ≤ TRAPFRAME := by
      rcases allocproc_ends allocated with ⟨none, -⟩ | ⟨np', frame, table, ram, is, unused, rfl⟩
      · cases none
      · cases is
        refine ⟨fun q used => ?_, ?_⟩
        · have other : q ≠ np := by
            rintro rfl
            exact used unused
          exact ⟨other, Function.update_of_ne other _ _⟩
        · rw [Kernel.setProc_proc]
          by_cases same : pid = np
          · rw [same, Function.update_self]
            exact sized np
          · rw [Function.update_of_ne same]
            exact sized pid
    obtain ⟨others, size⟩ := child
    obtain ⟨copied, k₂, copy, rest⟩ := bind_ends.mp rest
    obtain ⟨s, copies, rfl⟩ := inSpace_ends.mp copy
    obtain ⟨table, outside⟩ := uvmcopy_confined size (first.2 np) copies
    have second : (k₁.setSpace np s).Guarded := guarded_of_update first.2 rfl table
    have last : k'.Kept s.ram.page := by
      split at rest
      · obtain ⟨⟨⟩, k₃, sized', rest⟩ := bind_ends.mp rest
        have third := modifyProc_kept sized' ⟨rfl, second⟩ (second np)
        obtain ⟨⟨⟩, k₄, files, rest⟩ := bind_ends.mp rest
        have fourth := Keeps.forM (fun i _ => forkFile_kept i) k₃ third () k₄ files
        obtain ⟨⟨⟩, k₅, cwd, rest⟩ := bind_ends.mp rest
        have fifth := modifyProc_kept cwd ⟨fourth.1, fourth.2⟩ (fourth.2 np)
        obtain ⟨⟨⟩, k₆, vmas, rest⟩ := bind_ends.mp rest
        have sixth := Keeps.forM (fun i _ => forkVma_kept i) k₅ fifth () k₆ vmas
        obtain ⟨⟨⟩, k₇, started, rest⟩ := bind_ends.mp rest
        cases rest
        exact modifyProc_kept started sixth (sixth.2 np)
      · obtain ⟨⟨⟩, k₃, freed, rest⟩ := bind_ends.mp rest
        cases rest
        exact freeproc_kept _ ⟨rfl, second⟩ () _ freed
    refine ⟨last.2, fun q used frame own => ?_⟩
    obtain ⟨other, same⟩ := others q used
    rw [← frames] at distinct
    rw [last.1, outside frame (space_apart distinct other (same ▸ own))]
    exact congrFun first.1 frame

theorem step_spares {label : Label} (housed : k.Housed) (distinct : k.frames.Nodup)
    (guarded : k.Guarded) (within : WithinRegions k label) (step : k.Step layer label k') :
    k'.Guarded ∧ ∀ q, q ≠ label.pid → (k.proc q).state ≠ .unused → k.Spares k' q := by
  obtain ⟨enabled, r, run⟩ := step
  obtain ⟨pid, action⟩ := label
  have keeps : k'.Kept k.ram.page → k'.Guarded ∧ ∀ q, q ≠ pid → (k.proc q).state ≠ .unused →
      k.Spares k' q := fun kept => ⟨kept.2, fun q _ _ => spares_of_kept kept q⟩
  cases action with
  | mmap args => exact keeps (sys_mmap_kept k ⟨rfl, guarded⟩ r k' run)
  | munmap addr length => exact keeps (sys_munmap_kept k ⟨rfl, guarded⟩ r k' run)
  | access addr store =>
    obtain ⟨⟨⟩, k₁, run, rest⟩ := bind_ends.mp run
    cases rest
    obtain ⟨guarded', spares⟩ :=
      access_spares guarded distinct (housed.placed.tables pid) within run
    exact ⟨guarded', fun q other _ => spares q other⟩
  | fork =>
    obtain ⟨guarded', spares⟩ := fork_spares guarded distinct housed.vacant housed.sized run
    exact ⟨guarded', fun q _ used => spares q used⟩
  | exit =>
    obtain ⟨⟨⟩, k₁, run, rest⟩ := bind_ends.mp run
    cases rest
    exact keeps (exit_kept k ⟨rfl, guarded⟩ () _ run)
  | reap =>
    obtain ⟨⟨⟩, k₁, run, rest⟩ := bind_ends.mp run
    cases rest
    exact keeps (freeproc_kept k ⟨rfl, guarded⟩ () _ run)

/-- An action changes the entry of no other process that is in use. -/
theorem step_others {label : Label} (other : q ≠ label.pid) (used : (k.proc q).state ≠ .unused)
    (step : k.Step layer label k') : k'.proc q = k.proc q := by
  obtain ⟨enabled, r, run⟩ := step
  obtain ⟨pid, action⟩ := label
  have own : ∀ {p : Proc Ip}, k'.proc = Function.update k.proc pid p → k'.proc q = k.proc q :=
    fun procs => by rw [procs, Function.update_of_ne other]
  cases action with
  | mmap args =>
    rcases sys_mmap_ends run with ⟨-, rfl⟩ | ⟨f, slot, assigned, v, -, -, -, -, -, -, rfl⟩
    · rfl
    · exact own rfl
  | munmap addr length =>
    rcases sys_munmap_ends run with ⟨-, -, rfl⟩ | ⟨-, fs, written, rfl, -⟩ |
      ⟨-, i, fs, written, s, -, unmaps⟩
    · rfl
    · rfl
    · exact own unmaps.proc.1
  | access addr store =>
    obtain ⟨⟨⟩, k₁, run, rest⟩ := bind_ends.mp run
    cases rest
    obtain ⟨table, killed, ram, rfl⟩ := access_ends run
    exact own rfl
  | fork =>
    have spare : ∀ {np : Pid} {p : Proc Ip}, (k.proc np).state = .unused →
        k'.proc = Function.update k.proc np p → k'.proc q = k.proc q := by
      intro np p unused procs
      rw [procs, Function.update_of_ne]
      rintro rfl
      exact used unused
    rcases fork_procs enabled.1 run with ⟨-, same⟩ |
      ⟨np, unused, ⟨-, same⟩ | ⟨-, child, same, -, -, -⟩⟩
    · exact congrFun same q
    · exact spare unused same
    · exact spare unused same
  | exit =>
    obtain ⟨⟨⟩, k₁, run, rest⟩ := bind_ends.mp run
    cases rest
    obtain ⟨p, procs, -, -, -⟩ := exit_procs run
    exact own procs
  | reap =>
    obtain ⟨⟨⟩, k₁, run, rest⟩ := bind_ends.mp run
    cases rest
    obtain ⟨ram, rfl⟩ := freeproc_ends run
    exact own rfl

/-! ### Runs -/

/-- What keeps processes apart. -/
structure Kernel.Separated (k : Kernel Ip σ) : Prop where
  housed : k.Housed
  distinct : k.frames.Nodup
  guarded : k.Guarded

theorem step_separated {label : Label} (separated : k.Separated) (within : WithinRegions k label)
    (step : k.Step layer label k') : k'.Separated where
  housed := step_housed separated.housed step
  distinct := by
    have same := step_frames separated.housed within step
    have distinct := separated.distinct
    rw [← same] at distinct
    exact (Multiset.nodup_add.mp distinct).1
  guarded := (step_spares separated.housed separated.distinct separated.guarded within step).1

/-- Actions of processes that stay within their regions. -/
abbrev Kernel.Bounded (layer : FileLayer Ip σ) (k : Kernel Ip σ) (label : Label)
    (k' : Kernel Ip σ) : Prop :=
  k.Step layer label k' ∧ WithinRegions k label

theorem separated_of_run {start : Kernel Ip σ} {labels : List Label} (separated : start.Separated)
    (run : Run (Kernel.Bounded layer) start labels k) : k.Separated :=
  run.invariant (fun _ _ _ here step => step_separated here step.2 step.1) separated

theorem newSpace_guarded : newSpace.table.Guarded := by
  unfold newSpace
  split
  · next made s run =>
    exact (proc_pagetable_kept 9 _ ⟨rfl, null_guarded⟩ made s run).2
  · exact null_guarded

theorem smallKernel_separated (type : FileType) (ip : Option Unit) :
    (smallKernel type ip).Separated where
  housed := smallKernel_housed type ip
  distinct := smallKernel_distinct type ip
  guarded q := by
    simp only [smallKernel]
    split
    · exact newSpace_guarded
    · exact null_guarded

/-- Process 1 maps a page and forks, and the child writes to its copy. -/
def childWrites : List Label :=
  [mapPagesOf 4096 3 2, ⟨firstPid, .fork⟩, ⟨secondPid, .access topPage (some 7)⟩,
    ⟨secondPid, .access topPage (some 7)⟩]

/-- Process 1 writes to its own page, unmaps it and exits. -/
def parentGoes : List Label :=
  [⟨firstPid, .access topPage (some 9)⟩, ⟨firstPid, .access topPage (some 9)⟩,
    ⟨firstPid, .munmap topPage 4096⟩, ⟨firstPid, .exit⟩]

/-! ### Reachable pages -/

/-- Distinct frames are behind distinct entries. -/
theorem userFrames_once {leaf : Nat → Option Pte} (distinct : (userFrames leaf).Nodup)
    {vpn vpn' : Nat} (user : vpn ∈ userPages) (user' : vpn' ∈ userPages) {pte pte' : Pte}
    (present : leaf vpn = some pte) (present' : leaf vpn' = some pte')
    (same : pte'.frame = pte.frame) : vpn' = vpn := by
  by_contra different
  rw [userFrames, ← Finset.add_sum_erase _ _ user, present, Multiset.nodup_add] at distinct
  have here : pte.frame ∈ frameOf (some pte) := Multiset.mem_singleton_self _
  have there : pte.frame ∈ ∑ other ∈ userPages.erase vpn, frameOf (leaf other) := by
    refine Multiset.mem_sum.mpr ⟨vpn', Finset.mem_erase.mpr ⟨different, user'⟩, ?_⟩
    rw [present', ← same]
    exact Multiset.mem_singleton_self _
  exact Multiset.disjoint_left.mp distinct.2.2 here there

/-- **What a process can reach is its own.** In every reachable state, the page behind an entry
through which the hardware lets a process load or store is not free, no trapframe, no part of a page
table, and mapped by no other process, nor a second time by this one. -/
theorem reachable_page_own {start : Kernel Ip σ} {labels : List Label} (separated : start.Separated)
    (run : Run (Kernel.Bounded layer) start labels k) {vpn : Nat} {pte : Pte} {store : Bool}
    (present : (k.proc pid).pagetable.leaf vpn = some pte) (permits : pte.permits store = true) :
    pte.frame ∉ k.ram.free ∧ (∀ q, (k.proc q).trapframe ≠ some pte.frame) ∧
    (∀ q, ∀ page ∈ (k.proc q).pagetable.pages, page.frame ≠ pte.frame) ∧
    ∀ q vpn' pte', vpn' ∈ userPages → (k.proc q).pagetable.leaf vpn' = some pte' →
      pte'.frame = pte.frame → q = pid ∧ vpn' = vpn := by
  have here := separated_of_run separated run
  rw [Pte.permits, Bool.and_eq_true, Bool.and_eq_true] at permits
  have user := here.guarded pid vpn pte present permits.1.1
  have own := mem_frames user present
  have apart : ∀ q, pte.frame ∈ (k.proc q).frames → q = pid := fun q foreign => by
    by_contra other
    exact (frames_apart here.distinct (Ne.symm other) own).2 foreign
  have distinct := here.distinct
  rw [frames_split k pid, Multiset.nodup_add, Multiset.nodup_add, Proc.frames, Multiset.nodup_add,
    PageTable.frames, Multiset.nodup_add] at distinct
  obtain ⟨⟨-, ⟨-, ⟨-, users, pages⟩, trapframe⟩, free⟩, -⟩ := distinct
  have entry : pte.frame ∈ userFrames (k.proc pid).pagetable.leaf :=
    Multiset.mem_sum.mpr ⟨vpn, user, by rw [present]; exact Multiset.mem_singleton_self _⟩
  have table : pte.frame ∈ (k.proc pid).pagetable.frames := Multiset.mem_add.mpr (Or.inr entry)
  refine ⟨fun member => ?_, fun q held => ?_, fun q page member same => ?_,
    fun q vpn' pte' user' present' same => ?_⟩
  · exact Multiset.disjoint_left.mp free (Multiset.mem_coe.mpr member)
      (Multiset.mem_add.mpr (Or.inr table))
  · have foreign : pte.frame ∈ (k.proc q).frames := Multiset.mem_add.mpr <| Or.inl <| by
      rw [held]
      exact Multiset.mem_singleton_self _
    obtain rfl := apart q foreign
    refine Multiset.disjoint_left.mp trapframe ?_ table
    rw [held]
    exact Multiset.mem_singleton_self _
  · have tree : pte.frame ∈
        (((k.proc q).pagetable.pages.map TablePage.frame : List Nat) : Multiset Nat) :=
      Multiset.mem_coe.mpr (List.mem_map.mpr ⟨page, member, same⟩)
    obtain rfl := apart q (Multiset.mem_add.mpr (Or.inr (Multiset.mem_add.mpr (Or.inl tree))))
    exact Multiset.disjoint_left.mp pages tree entry
  · have foreign := mem_frames user' present'
    rw [same] at foreign
    obtain rfl := apart q foreign
    exact ⟨rfl, userFrames_once users user user' present present' same⟩

theorem reachable_page_own_small : ∃ k pte, Run (Kernel.Bounded oneFile)
      (smallKernel .inode (some ())) childWrites k ∧
    (k.proc secondPid).pagetable.leaf (topPage.toNat / PGSIZE) = some pte ∧
    pte.permits true = true ∧ pte.frame ∉ k.ram.free ∧
    (∀ q, (k.proc q).trapframe ≠ some pte.frame) := by
  have replayed : (replay oneFile staysWithin childWrites (smallKernel .inode (some ()))).any
      fun k => ((k.proc secondPid).pagetable.leaf (topPage.toNat / PGSIZE)).any
        fun pte => pte.permits true := by
    decide +kernel
  obtain ⟨k, reached, mapped⟩ := (Option.any_eq_true _ _).mp replayed
  obtain ⟨pte, present, permits⟩ := (Option.any_eq_true _ _).mp mapped
  have run := run_of_replay WithinRegions withinRegions_of_stays reached
  obtain ⟨occupied, trapframe, -, -⟩ :=
    reachable_page_own (smallKernel_separated _ _) run present permits
  exact ⟨k, pte, run, present, permits, occupied, trapframe⟩

/-! ### Isolation -/

/-- **Isolation.** Whatever other processes do, a process that does nothing keeps its entry of the
process table, its page table among it, and every byte of its memory. -/
theorem isolation {start before : Kernel Ip σ} {earlier labels : List Label}
    (separated : start.Separated) (reached : Run (Kernel.Bounded layer) start earlier before)
    (run : Run (Kernel.Bounded layer) before labels k) (others : ∀ label ∈ labels, label.pid ≠ q)
    (used : (before.proc q).state ≠ .unused) :
    k.proc q = before.proc q ∧ ∀ a < TRAPFRAME, k.byteAt q a = before.byteAt q a := by
  have separated := separated_of_run separated reached
  clear reached
  induction run with
  | nil => exact ⟨rfl, fun _ _ => rfl⟩
  | @cons first middle last label labels step _ ih =>
    have other := (others label List.mem_cons_self).symm
    have entry := step_others other used step.1
    obtain ⟨-, spares⟩ :=
      step_spares separated.housed separated.distinct separated.guarded step.2 step.1
    obtain ⟨same, bytes⟩ := ih (fun label member => others label (List.mem_cons_of_mem _ member))
      (entry ▸ used) (step_separated separated step.2 step.1)
    refine ⟨same.trans entry, fun a low => (bytes a low).trans ?_⟩
    rw [Kernel.byteAt, Kernel.byteAt, entry]
    cases present : (first.proc q).pagetable.leaf (a / PGSIZE) with
    | none => rfl
    | some pte =>
      have user : a / PGSIZE ∈ userPages := mem_userPages.mpr <| by
        unfold TRAPFRAME TRAMPOLINE MAXVA PGSIZE at *
        omega
      have page := spares q other used pte.frame (mem_frames user present)
      simp only [Option.map_some, page]

theorem isolation_small : ∃ before k, Run (Kernel.Bounded oneFile) (smallKernel .inode (some ()))
      childWrites before ∧ Run (Kernel.Bounded oneFile) before parentGoes k ∧
    before.byteAt secondPid topPage.toNat = some 7 ∧ k.byteAt secondPid topPage.toNat = some 7 := by
  have replayed : (replay oneFile staysWithin childWrites (smallKernel .inode (some ()))).any
      fun before => (replay oneFile staysWithin parentGoes before).isSome &&
        decide ((before.proc secondPid).state ≠ .unused) &&
        before.byteAt secondPid topPage.toNat == some 7 := by
    decide +kernel
  obtain ⟨before, reached, checks⟩ := (Option.any_eq_true _ _).mp replayed
  simp only [Bool.and_eq_true, beq_iff_eq, decide_eq_true_eq] at checks
  obtain ⟨⟨ends, used⟩, written⟩ := checks
  obtain ⟨k, reached'⟩ := Option.isSome_iff_exists.mp ends
  have earlier := run_of_replay WithinRegions withinRegions_of_stays reached
  have later := run_of_replay WithinRegions withinRegions_of_stays reached'
  have others : ∀ label ∈ parentGoes, label.pid ≠ secondPid := by decide
  have kept := (isolation (smallKernel_separated _ _) earlier later others used).2
    topPage.toNat (by decide)
  exact ⟨before, k, earlier, later, written, kept.trans written⟩

/-- Process 1 has a region of two pages and faults inside the first one; its child takes the page
that this made an entry for, too, and writes to it. -/
def faultInside : List Label :=
  [mapPagesOf 8192 3 2, ⟨firstPid, .fork⟩, ⟨firstPid, .access (topPage - 4095) none⟩,
    ⟨secondPid, .access topPage (some 7)⟩, ⟨secondPid, .access topPage (some 7)⟩]

/-- After a fault inside a page, a store of one process changes the memory of another. -/
theorem isolation_needs_starts : ∃ before k,
    Run (Kernel.Step oneFile) (smallKernel .inode (some ())) faultInside before ∧
    Run (Kernel.Step oneFile) before [⟨firstPid, .access topPage (some 9)⟩] k ∧
    before.byteAt secondPid topPage.toNat = some 7 ∧ k.byteAt secondPid topPage.toNat = some 9 := by
  have replayed : (replay oneFile (fun _ _ => true) faultInside (smallKernel .inode (some ()))).any
      fun before => (replay oneFile (fun _ _ => true)
        [⟨firstPid, .access topPage (some 9)⟩] before).any fun k =>
          before.byteAt secondPid topPage.toNat == some 7 &&
            k.byteAt secondPid topPage.toNat == some 9 := by
    decide +kernel
  obtain ⟨before, reached, checks⟩ := (Option.any_eq_true _ _).mp replayed
  obtain ⟨k, reached', checks⟩ := (Option.any_eq_true _ _).mp checks
  simp only [Bool.and_eq_true, beq_iff_eq] at checks
  have steps := fun {labels} {k k' : Kernel Unit (List UInt8)}
      (reached : replay oneFile (fun _ _ => true) labels k = some k') =>
    (run_of_replay (fun _ _ => True) (fun _ _ _ => trivial) reached).mono fun _ _ _ => And.left
  exact ⟨before, k, steps reached, steps reached', checks.1, checks.2⟩

end Csc3150.Mmap
