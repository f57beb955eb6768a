/-
**Page faults.**

The load/store page-fault branch of `usertrap` panics when no region covers the address, when the
region's file has no inode or one that is not referenced, and when one of the pages that the fault spans
is mapped already. A fault at an address inside a page spans two pages. `page_fault_handled_iff` says
exactly which faults are handled as the branch means to: the page is mapped with the permissions of its
region, or the process is killed.

* `mapPage_remap`, `mapPage_full`, `mapPage_maps` — one turn of `mappages`;
* `pageFault_*` — the ways in which the branch ends.
-/

import Csc3150.Mmap.Munmap

namespace Csc3150.Mmap

open Outcome Program Transition

/-! ### One turn of `mappages` -/

/-- The page-table pages that `walk` has to allocate on the way to a page. -/
def PageTable.missing (table : PageTable) (vpn : Nat) : Nat :=
  (if HasPage table.pages 1 vpn then 0 else 1) + if HasPage table.pages 0 vpn then 0 else 1

namespace Space

variable (s : Space) (level vpn : Nat)

theorem grow_leaf : (s.grow level vpn).table.leaf = s.table.leaf := by
  unfold grow
  split
  · rfl
  · split <;> rfl

theorem walk_leaf : (s.walk vpn).table.leaf = s.table.leaf := by
  unfold walk
  dsimp only
  split
  · rw [grow_leaf, grow_leaf]
  · exact grow_leaf s 1 vpn

theorem grow_of_has (has : HasPage s.table.pages level vpn) : s.grow level vpn = s := if_pos has

variable {s level vpn}

/-- A missing page is added, unless memory is full. -/
theorem grow_cases (lacks : ¬ HasPage s.table.pages level vpn) :
    (s.ram.free = [] ∧ s.grow level vpn = s) ∨ ∃ frame, s.ram.free = frame :: (s.grow level vpn).ram.free ∧
      (s.grow level vpn).table.pages = ⟨level, PX level vpn, frame⟩ :: s.table.pages := by
  unfold grow
  rw [if_neg lacks]
  split
  · next full => exact Or.inl ⟨full, rfl⟩
  · next frame rest free => exact Or.inr ⟨frame, free, rfl⟩

theorem hasPage_cons_iff {pages : List TablePage} {page : TablePage} {level vpn : Nat}
    (other : page.level ≠ level) : HasPage (page :: pages) level vpn ↔ HasPage pages level vpn := by
  unfold HasPage
  rw [List.exists_mem_cons_iff, or_iff_right]
  exact fun here => other here.1

/-- `walk` reaches the page exactly when memory is left for the page-table pages. -/
theorem walk_cases (s : Space) (vpn : Nat) :
    (Reaches (s.walk vpn).table.pages vpn ∧
      (s.walk vpn).ram.free.length + s.table.missing vpn = s.ram.free.length) ∨
    (¬ Reaches (s.walk vpn).table.pages vpn ∧ s.ram.free.length < s.table.missing vpn ∧
      (s.walk vpn).ram.free = []) := by
  have bottom : ∀ s : Space, HasPage s.table.pages 1 vpn →
      (Reaches (s.grow 0 vpn).table.pages vpn ∧ (s.grow 0 vpn).ram.free.length +
        (if HasPage s.table.pages 0 vpn then 0 else 1) = s.ram.free.length) ∨
      (¬ Reaches (s.grow 0 vpn).table.pages vpn ∧ ¬ HasPage s.table.pages 0 vpn ∧
        s.ram.free = [] ∧ (s.grow 0 vpn).ram.free = []) := by
    intro s top
    by_cases has : HasPage s.table.pages 0 vpn
    · rw [grow_of_has s 0 vpn has, if_pos has]
      exact Or.inl ⟨⟨top, has⟩, rfl⟩
    · rw [if_neg has]
      rcases grow_cases has with ⟨full, same⟩ | ⟨frame, free, pages⟩
      · rw [same]
        exact Or.inr ⟨fun reaches => has reaches.2, has, full, full⟩
      · rw [pages, free]
        exact Or.inl ⟨⟨top.cons _, .head _ 0 vpn frame⟩, rfl⟩
  unfold walk PageTable.missing
  dsimp only
  by_cases top : HasPage s.table.pages 1 vpn
  · rw [grow_of_has s 1 vpn top, if_pos top, if_pos top]
    rcases bottom s top with ⟨reaches, sum⟩ | ⟨stuck, lacks, full, full'⟩
    · exact Or.inl ⟨reaches, by omega⟩
    · rw [if_neg lacks, full]
      exact Or.inr ⟨stuck, by decide, full'⟩
  · rw [if_neg top]
    rcases grow_cases top with ⟨full, same⟩ | ⟨frame, free, pages⟩
    · rw [same, if_neg top, full]
      exact Or.inr ⟨fun reaches => top reaches.1, by rw [List.length_nil]; omega, rfl⟩
    · have here : HasPage (s.grow 1 vpn).table.pages 1 vpn := pages ▸ .head _ 1 vpn frame
      have below : HasPage (s.grow 1 vpn).table.pages 0 vpn ↔ HasPage s.table.pages 0 vpn := by
        rw [pages, hasPage_cons_iff Nat.one_ne_zero]
      rw [if_pos here, free, List.length_cons]
      rcases bottom _ here with ⟨reaches, sum⟩ | ⟨stuck, lacks, full, full'⟩
      · rw [if_congr below rfl rfl] at sum
        exact Or.inl ⟨reaches, by omega⟩
      · rw [below] at lacks
        rw [if_neg lacks, full]
        exact Or.inr ⟨stuck, by decide, full'⟩

end Space

section MapPage

variable (pte : Pte) {s : Space} {vpn : Nat}

/-- A page that is mapped already makes `mappages` panic. -/
theorem mapPage_remap (low : vpn * PGSIZE < MAXVA) (mapped : s.table.leaf vpn ≠ none) :
    mapPage vpn pte s = .error .remap := by
  have reached := s.table.rooted vpn mapped
  have same : s.walk vpn = s := by
    unfold Space.walk
    dsimp only
    rw [s.grow_of_has 1 vpn reached.1, if_pos reached.1, s.grow_of_has 0 vpn reached.2]
  rw [mapPage, if_neg (by omega), same, dif_pos reached, if_pos mapped]

/-- Without memory for the page-table pages nothing is mapped. -/
theorem mapPage_full (low : vpn * PGSIZE < MAXVA)
    (full : s.ram.free.length < s.table.missing vpn) :
    ∃ s', mapPage vpn pte s = .ok (false, s') ∧ s'.table.leaf = s.table.leaf ∧ s'.ram.free = [] := by
  rcases s.walk_cases vpn with ⟨-, enough⟩ | ⟨stuck, -, empty⟩
  · omega
  · exact ⟨s.walk vpn, by rw [mapPage, if_neg (by omega), dif_neg stuck], s.walk_leaf vpn, empty⟩

/-- A page that is not mapped is mapped. -/
theorem mapPage_maps (low : vpn * PGSIZE < MAXVA) (fresh : s.table.leaf vpn = none)
    (enough : s.table.missing vpn ≤ s.ram.free.length) :
    ∃ s', mapPage vpn pte s = .ok (true, s') ∧
      s'.table.leaf = Function.update s.table.leaf vpn (some pte) := by
  rcases s.walk_cases vpn with ⟨reached, -⟩ | ⟨-, full, -⟩
  · refine ⟨_, by rw [mapPage, if_neg (by omega), dif_pos reached, s.walk_leaf, if_neg (not_not.mpr fresh)],
      ?_⟩
    rw [← s.walk_leaf vpn]
    rfl
  · omega

end MapPage

/-! ### The pages that a fault spans -/

/-- A page fault at an aligned address maps one page, at any other address two. -/
theorem mappages_eq {addr : Nat} (low : addr < TRAPFRAME) (pte : Pte) :
    mappages addr PGSIZE pte =
      mapPages (addr / PGSIZE) pte (if addr % PGSIZE = 0 then 1 else 2) := by
  have last : PGROUNDDOWN (word (addr + PGSIZE - 1)) / PGSIZE - addr / PGSIZE + 1 =
      if addr % PGSIZE = 0 then 1 else 2 := by
    rw [PGROUNDDOWN_div]
    unfold TRAPFRAME TRAMPOLINE MAXVA PGSIZE at low
    unfold word PGSIZE
    split <;> omega
  unfold mappages
  dsimp only
  rw [PGROUNDDOWN_div, last]

/-- One of the pages that a fault spans is mapped when `mappages` gets to it. -/
def Remaps (s : Space) (addr : Nat) : Prop :=
  s.table.leaf (addr / PGSIZE) ≠ none ∨
    addr % PGSIZE ≠ 0 ∧ s.table.missing (addr / PGSIZE) ≤ s.ram.free.length ∧
      s.table.leaf (addr / PGSIZE + 1) ≠ none

section MapPages

variable {s : Space} {addr : Nat} {pte : Pte}

theorem page_low (low : addr < TRAPFRAME) : (addr / PGSIZE + 1) * PGSIZE < MAXVA := by
  unfold TRAPFRAME TRAMPOLINE MAXVA PGSIZE at *
  omega

theorem mappages_remap (low : addr < TRAPFRAME) (remaps : Remaps s addr) :
    mappages addr PGSIZE pte s = .error .remap := by
  have next := page_low low
  have first : addr / PGSIZE * PGSIZE < MAXVA := by
    rw [Nat.add_mul] at next
    omega
  rw [mappages_eq low]
  by_cases fresh : s.table.leaf (addr / PGSIZE) = none
  · obtain ⟨unaligned, enough, mapped⟩ := remaps.resolve_left (not_not.mpr fresh)
    obtain ⟨s', run, leaf⟩ := mapPage_maps pte first fresh enough
    rw [if_neg unaligned, mapPages, bind_run run, if_pos rfl, mapPages]
    refine bind_stops.mpr (Or.inl (mapPage_remap _ next ?_))
    rwa [leaf, Function.update_of_ne (Nat.succ_ne_self _)]
  · have stops := mapPage_remap pte first fresh
    split <;> exact bind_stops.mpr (Or.inl stops)

/-- Otherwise the page is mapped, or memory is used up. -/
theorem mappages_ends (low : addr < TRAPFRAME) (fresh : ¬ Remaps s addr) :
    ∃ mapped s', mappages addr PGSIZE pte s = .ok (mapped, s') ∧
      (mapped = true → s'.table.leaf (addr / PGSIZE) = some pte) ∧
      (mapped = false → s'.ram.free = []) := by
  have next := page_low low
  have first : addr / PGSIZE * PGSIZE < MAXVA := by
    rw [Nat.add_mul] at next
    omega
  unfold Remaps at fresh
  push Not at fresh
  obtain ⟨unmapped, unmapped'⟩ := fresh
  rw [mappages_eq low]
  by_cases enough : s.table.missing (addr / PGSIZE) ≤ s.ram.free.length
  · obtain ⟨s', run, leaf⟩ := mapPage_maps pte first unmapped enough
    have here : s'.table.leaf (addr / PGSIZE) = some pte := by rw [leaf, Function.update_self]
    by_cases aligned : addr % PGSIZE = 0
    · refine ⟨true, s', ?_, fun _ => here, nofun⟩
      rw [if_pos aligned, mapPages, bind_run run]
      rfl
    · rw [if_neg aligned, mapPages, bind_run run, if_pos rfl, mapPages]
      have unmappedNext : s'.table.leaf (addr / PGSIZE + 1) = none := by
        rw [leaf, Function.update_of_ne (Nat.succ_ne_self _)]
        exact unmapped' aligned enough
      by_cases enough' : s'.table.missing (addr / PGSIZE + 1) ≤ s'.ram.free.length
      · obtain ⟨s'', run', leaf'⟩ := mapPage_maps { pte with frame := pte.frame + 1 } next
          unmappedNext enough'
        refine ⟨true, s'', by rw [bind_run run']; rfl, fun _ => ?_, nofun⟩
        rw [leaf', Function.update_of_ne (Nat.succ_ne_self _).symm, here]
      · obtain ⟨s'', run', -, full⟩ := mapPage_full { pte with frame := pte.frame + 1 } next
          (Nat.lt_of_not_le enough')
        exact ⟨false, s'', by rw [bind_run run']; rfl, nofun, fun _ => full⟩
  · obtain ⟨s', run, -, full⟩ := mapPage_full pte first (Nat.lt_of_not_le enough)
    refine ⟨false, s', ?_, nofun, fun _ => full⟩
    split <;>
    · rw [mapPages, bind_run run]
      rfl

end MapPages

/-! ### The page-fault branch -/

variable {Ip σ : Type} {layer : FileLayer Ip σ} {start k k' : Kernel Ip σ} {labels : List Label}
  {pid : Pid} {addr : Nat} {i : Fin VMASIZE}

/-- The permissions of an entry are among those of a region. -/
structure Vma.Allows (v : Vma) (pte : Pte) : Prop where
  r : pte.r = true → v.isReadable = true
  w : pte.w = true → v.isWritable = true
  x : pte.x = true → v.isExecutable = true

theorem Vma.allows_entry (v : Vma) (frame : Nat) : v.Allows (v.entry frame) := ⟨id, id, id⟩

/-- The kernel when the page-fault branch has read the file into the page that it took. -/
def Kernel.lentTo (k : Kernel Ip σ) (frame : Nat) (rest : List Nat) (bytes : List UInt8) :
    Kernel Ip σ :=
  { k with ram := { k.ram with free := rest, lent := frame :: k.ram.lent }.fill frame (pageOf bytes) }

theorem Kernel.setSpace_same (k : Kernel Ip σ) (pid : Pid) (ram : Ram) :
    k.setSpace pid ⟨ram, (k.proc pid).pagetable⟩ = { k with ram := ram } := by
  unfold setSpace setProc
  rw [Proc.setTable_self, Function.update_eq_self]

/-- What the branch does after a page was mapped, or was not. -/
def finishFault (pid : Pid) (frame : Nat) (mapped : Bool) : KProg Ip σ Unit := fun k => do
  if mapped then return ((), k)
  else
    let ((), k) ← inSpace pid (kfree frame) k
    setkilled pid k

/-- Without memory the process is killed. -/
theorem pageFault_exhausted (found : VmaTable.find (k.proc pid).vma addr = some i)
    (full : k.ram.free = []) : pageFault layer pid addr k = setkilled pid k := by
  have lends : inSpace pid lend k = .ok (none, k) := by
    refine inSpace_ends.mpr ⟨k.space pid, ?_, (k.setSpace_same pid k.ram).symm⟩
    have none : kalloc (k.space pid) = .ok (none, k.space pid) := by
      unfold kalloc Kernel.space
      rw [full]
    rw [lend, bind_run none]
    rfl
  unfold pageFault
  rw [found]
  exact bind_of_ok lends

theorem lend_ends {frame : Nat} {rest : List Nat} (free : k.ram.free = frame :: rest) :
    inSpace pid lend k = .ok (some frame,
      { k with ram := { k.ram with free := rest, lent := frame :: k.ram.lent } }) := by
  refine inSpace_ends.mpr ⟨_, ?_, (k.setSpace_same pid _).symm⟩
  have some : kalloc (k.space pid) =
      .ok (some frame, ⟨{ k.ram with free := rest }, (k.proc pid).pagetable⟩) := by
    unfold kalloc Kernel.space
    rw [free]
  rw [lend, bind_run some]
  rfl

/-- The file has an inode that is referenced. -/
def Kernel.Lockable (layer : FileLayer Ip σ) (k : Kernel Ip σ) (f : Fp) : Prop :=
  ∃ ip ∈ (k.file f).ip, 1 ≤ layer.ref k.fs ip

instance (k : Kernel Ip σ) (f : Fp) : Decidable (k.Lockable layer f) :=
  inferInstanceAs (Decidable (∃ ip ∈ (k.file f).ip, _))

/-- A file without a referenced inode makes `ilock` panic. -/
theorem pageFault_ilock (found : VmaTable.find (k.proc pid).vma addr = some i)
    (memory : k.ram.free ≠ []) (stuck : ¬ k.Lockable layer ((k.proc pid).vma i).file) :
    pageFault layer pid addr k = .error .ilock := by
  obtain ⟨frame, rest, free⟩ := List.exists_cons_of_ne_nil memory
  unfold pageFault
  rw [found]
  exact (bind_of_ok (lend_ends free)).trans (bind_of_error (ilock_eq_error stuck))

/-- With memory and an inode, the page is mapped as `mappages` has it. -/
theorem pageFault_maps (found : VmaTable.find (k.proc pid).vma addr = some i)
    {frame : Nat} {rest : List Nat} (free : k.ram.free = frame :: rest) {ip : Ip}
    (inode : (k.file ((k.proc pid).vma i).file).ip = some ip) (referenced : 1 ≤ layer.ref k.fs ip)
    (reads : ∀ fs ip off n, 0 ≤ (layer.readi fs ip off n).1) :
    pageFault layer pid addr k = (do
      let (mapped, k) ← inSpace pid (mappages addr PGSIZE (((k.proc pid).vma i).entry frame))
        (k.lentTo frame rest (layer.readi k.fs ip (((k.proc pid).vma i).fileOffset addr)
          (UInt32.ofNat PGSIZE)).2)
      finishFault pid frame mapped k) := by
  unfold pageFault
  rw [found]
  refine (bind_of_ok (lend_ends free)).trans ?_
  refine (bind_of_ok (ilock_eq_ok.mpr ⟨inode, referenced⟩)).trans ?_
  dsimp only
  rw [if_neg (not_lt.mpr (reads _ _ _ _))]
  rfl

/-- No region covers the address, or none that covers it permits the access, or memory is used up but
for the page that was given back. -/
def KillReason (k k' : Kernel Ip σ) (pid : Pid) (addr : Nat) (store : Bool) : Prop :=
  (∀ i, ((k.proc pid).vma i).used = true → addr ∈ ((k.proc pid).vma i).range →
    (((k.proc pid).vma i).entry 0).permits store = false) ∨ k'.ram.free.length ≤ 1

/-- The branch ends, and the page is mapped as its region allows or the process is killed. -/
def FaultHandled (layer : FileLayer Ip σ) (k : Kernel Ip σ) (pid : Pid) (addr : Nat) (store : Bool) :
    Prop :=
  ∃ k', pageFault layer pid addr k = .ok ((), k') ∧
    ((∃ i pte, ((k.proc pid).vma i).used = true ∧ addr ∈ ((k.proc pid).vma i).range ∧
        (k'.proc pid).pagetable.leaf (addr / PGSIZE) = some pte ∧
        ((k.proc pid).vma i).Allows pte) ∨
      (k'.proc pid).killed = true ∧ KillReason k k' pid addr store)

/-- A region covers the address, and memory is used up or its file has a referenced inode and the
pages that the fault spans are not mapped, the second one as far as memory lasts to get to it. -/
def FaultCondition (layer : FileLayer Ip σ) (k : Kernel Ip σ) (pid : Pid) (addr : Nat) : Prop :=
  ∃ i, VmaTable.find (k.proc pid).vma addr = some i ∧ (k.ram.free = [] ∨
    k.Lockable layer ((k.proc pid).vma i).file ∧
    (k.proc pid).pagetable.leaf (addr / PGSIZE) = none ∧
    (addr % PGSIZE = 0 ∨ k.ram.free.length ≤ (k.proc pid).pagetable.missing (addr / PGSIZE) ∨
      (k.proc pid).pagetable.leaf (addr / PGSIZE + 1) = none))

/-- A page fault is handled exactly under the condition. -/
theorem faultHandled_iff (placed : (k.proc pid).vma.Placed)
    (reads : ∀ fs ip off n, 0 ≤ (layer.readi fs ip off n).1) (store : Bool) :
    FaultHandled layer k pid addr store ↔ FaultCondition layer k pid addr := by
  cases found : VmaTable.find (k.proc pid).vma addr with
  | none =>
    have panics : pageFault layer pid addr k = .error .noMatchingVma := by
      unfold pageFault
      rw [found]
    refine iff_of_false ?_ ?_
    · rintro ⟨k', run, -⟩
      rw [panics] at run
      cases run
    · rintro ⟨i, found', -⟩
      rw [found] at found'
      cases found'
  | some i =>
    have covers := (VmaTable.find_eq_some_iff.mp found).1
    have used : ((k.proc pid).vma i).used = true := by
      rw [Vma.contains, Bool.and_eq_true, Bool.and_eq_true] at covers
      exact covers.1.1
    have inside := ((placed i used).contains_iff.mp covers).2
    have low : addr < TRAPFRAME := lt_of_lt_of_le inside.2 (placed i used).top
    have condition : FaultCondition layer k pid addr ↔ (k.ram.free = [] ∨
        k.Lockable layer ((k.proc pid).vma i).file ∧
        (k.proc pid).pagetable.leaf (addr / PGSIZE) = none ∧
        (addr % PGSIZE = 0 ∨ k.ram.free.length ≤ (k.proc pid).pagetable.missing (addr / PGSIZE) ∨
          (k.proc pid).pagetable.leaf (addr / PGSIZE + 1) = none)) := by
      refine ⟨?_, fun rest => ⟨i, found, rest⟩⟩
      rintro ⟨j, found', rest⟩
      obtain rfl := Option.some.inj (found.symm.trans found')
      exact rest
    rw [condition]
    cases free : k.ram.free with
    | nil =>
      refine iff_of_true ?_ (Or.inl rfl)
      refine ⟨_, (pageFault_exhausted found free).trans rfl, Or.inr ⟨?_, Or.inr ?_⟩⟩
      · rw [Kernel.setProc_proc, Function.update_self]
      · rw [Kernel.setProc_ram, free]
        exact Nat.zero_le 1
    | cons frame rest =>
      rw [or_iff_right (List.cons_ne_nil _ _)]
      by_cases lockable : k.Lockable layer ((k.proc pid).vma i).file
      case neg =>
        have panics : pageFault layer pid addr k = .error .ilock := pageFault_ilock found
          (by rw [free]; exact List.cons_ne_nil _ _) lockable
        refine iff_of_false ?_ fun both => lockable both.1
        rintro ⟨k', run, -⟩
        rw [panics] at run
        cases run
      case pos =>
        obtain ⟨ip, inode, referenced⟩ := lockable
        have fault := pageFault_maps found free inode referenced reads
        generalize (layer.readi k.fs ip (((k.proc pid).vma i).fileOffset addr)
          (UInt32.ofNat PGSIZE)).2 = bytes at fault
        have clear : ((k.proc pid).pagetable.leaf (addr / PGSIZE) = none ∧ (addr % PGSIZE = 0 ∨
              (frame :: rest).length ≤ (k.proc pid).pagetable.missing (addr / PGSIZE) ∨
              (k.proc pid).pagetable.leaf (addr / PGSIZE + 1) = none)) ↔
            ¬ Remaps ((k.lentTo frame rest bytes).space pid) addr := by
          have memory : (k.proc pid).pagetable.missing (addr / PGSIZE) ≤ rest.length ↔
              ¬ (frame :: rest).length ≤ (k.proc pid).pagetable.missing (addr / PGSIZE) := by
            rw [List.length_cons]
            omega
          unfold Remaps
          change _ ↔ ¬ ((k.proc pid).pagetable.leaf (addr / PGSIZE) ≠ none ∨ addr % PGSIZE ≠ 0 ∧
            (k.proc pid).pagetable.missing (addr / PGSIZE) ≤ rest.length ∧
            (k.proc pid).pagetable.leaf (addr / PGSIZE + 1) ≠ none)
          rw [memory]
          tauto
        rw [clear, and_iff_right ⟨ip, inode, referenced⟩]
        constructor
        · rintro ⟨k', run, -⟩ remaps
          rw [fault, bind_of_error (inSpace_error (mappages_remap low remaps))] at run
          cases run
        · intro fresh
          obtain ⟨mapped, s', run, maps, full⟩ := mappages_ends low fresh
          rw [FaultHandled, fault, bind_of_ok (inSpace_ends.mpr ⟨s', run, rfl⟩)]
          cases mapped with
          | true =>
            refine ⟨_, rfl, Or.inl ⟨i, _, used, inside, ?_, Vma.allows_entry _ frame⟩⟩
            rw [Kernel.setSpace_proc, Function.update_self, Proc.setTable_pagetable]
            exact maps rfl
          | false =>
            refine ⟨_, rfl, Or.inr ⟨?_, Or.inr ?_⟩⟩
            · rw [Kernel.setProc_proc, Function.update_self]
            · change (frame :: s'.ram.free).length ≤ 1
              rw [full rfl]
              exact le_rfl

/-- **Every page fault in a reachable state is handled exactly under the condition.** -/
theorem page_fault_handled_iff (reads : ∀ fs ip off n, 0 ≤ (layer.readi fs ip off n).1)
    (boot : start.NoRegions) (run : Run (Kernel.Step layer) start labels k) (pid : Pid) (addr : Nat)
    (store : Bool) : FaultHandled layer k pid addr store ↔ FaultCondition layer k pid addr :=
  faultHandled_iff ((placed_of_run boot run).tables pid) reads store

instance (k : Kernel Ip σ) (pid : Pid) (addr : Nat) : Decidable (FaultCondition layer k pid addr) :=
  inferInstanceAs (Decidable (∃ _ : Fin VMASIZE, _ ∧ _))

/-- The first load from a read-only region. -/
theorem page_fault_handled_small : ∃ k, Run (Kernel.Step oneFile) (smallKernel .inode (some ()))
      [mapPagesOf 4096 1 2] k ∧ FaultHandled oneFile k firstPid topPage.toNat false := by
  have replayed : (replay oneFile (fun _ _ => true) [mapPagesOf 4096 1 2]
      (smallKernel .inode (some ()))).any fun k =>
        decide (FaultCondition oneFile k firstPid topPage.toNat) := by
    decide +kernel
  rw [Option.any_eq_true] at replayed
  obtain ⟨k, reached, condition⟩ := replayed
  have run := (run_of_replay (fun _ _ => True) (fun _ _ _ => trivial) reached).mono
    fun _ _ _ => And.left
  exact ⟨k, run, (page_fault_handled_iff (fun _ _ _ _ => Int.natCast_nonneg _)
    (smallKernel_noRegions _ _) run firstPid topPage.toNat false).mpr (of_decide_eq_true condition)⟩

/-- **A user program panics the kernel.** With one read-only page mapped and loaded from, a load from
an address outside every region panics, and so does a store to the page. -/
theorem page_fault_panics : ∃ k, Run (Kernel.Step oneFile) (smallKernel .inode (some ()))
      [mapPagesOf 4096 1 2, ⟨firstPid, .access topPage none⟩] k ∧
    Enabled (k.proc firstPid) (.access 0 none) ∧
    access oneFile firstPid 0 none k = .error .noMatchingVma ∧
    access oneFile firstPid topPage.toNat (some 7) k = .error .remap ∧
    ¬ FaultHandled oneFile k firstPid 0 false ∧
    ¬ FaultHandled oneFile k firstPid topPage.toNat true := by
  have replayed : (replay oneFile (fun _ _ => true)
      [mapPagesOf 4096 1 2, ⟨firstPid, .access topPage none⟩] (smallKernel .inode (some ()))).any
      fun k =>
        decide (Enabled (k.proc firstPid) (.access 0 none)) &&
        errorOf (access oneFile firstPid 0 none k) == some .noMatchingVma &&
        errorOf (access oneFile firstPid topPage.toNat (some 7) k) == some .remap &&
        errorOf (pageFault oneFile firstPid 0 k) == some .noMatchingVma &&
        errorOf (pageFault oneFile firstPid topPage.toNat k) == some .remap := by
    decide +kernel
  rw [Option.any_eq_true] at replayed
  obtain ⟨k, reached, checks⟩ := replayed
  simp only [Bool.and_eq_true, decide_eq_true_eq, beq_iff_eq, errorOf_eq_some] at checks
  obtain ⟨⟨⟨⟨enabled, outside⟩, remap⟩, fault⟩, fault'⟩ := checks
  refine ⟨k, (run_of_replay (fun _ _ => True) (fun _ _ _ => trivial) reached).mono
    fun _ _ _ => And.left, enabled, outside, remap, ?_, ?_⟩
  · rintro ⟨k', run, -⟩
    rw [fault] at run
    cases run
  · rintro ⟨k', run, -⟩
    rw [fault'] at run
    cases run

end Csc3150.Mmap
