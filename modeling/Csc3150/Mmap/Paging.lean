/-
**Demand paging.**

Which page a fault maps, and what is in it. `mappages` is called with the address of the fault, and
that address is the file offset, too, so the page is right when the fault is at its first byte.

* `pageFault_done` — a fault that completes: one turn of `readi` and the pages that `mappages` made;
* `fault_shows_page` — the page of the address is mapped with the bytes of the file, and no other page
  is, exactly for a fault at the start of a page;
* `fault_maps_two_pages` — a fault inside a page.
-/

import Csc3150.Mmap.Fork

namespace Csc3150.Mmap

open Outcome Program Search Transition

variable {Ip σ : Type} {layer : FileLayer Ip σ} {start k k' : Kernel Ip σ} {labels : List Label}
  {pid : Pid} {addr : Nat} {i : Fin VMASIZE}

/-! ### The offsets of regions -/

/-- A region made by `sys_mmap` has the offset of the request, which is not negative. -/
theorem sys_mmap_offset {args : MmapArgs} {r : Int} (run : sys_mmap pid args k = .ok (r, k'))
    (i : Fin VMASIZE) : (k'.proc pid).vma i = (k.proc pid).vma i ∨
      0 ≤ ((k'.proc pid).vma i).offset.toInt := by
  rw [sys_mmap] at run
  dsimp only at run
  split at run
  · cases run
    exact Or.inl rfl
  · next valid =>
    rw [not_or, not_lt] at valid
    split at run
    · cases run
    · split_ifs at run
      · cases run
        exact Or.inl rfl
      · cases run
        exact Or.inl rfl
      · split at run
        · cases run
        · next slot assigned _ =>
          obtain ⟨⟨⟨⟩, k₁⟩, dup, rest⟩ := bind_eq_ok.mp run
          obtain ⟨-, rfl⟩ := filedup_ends.mp dup
          cases rest
          rw [Kernel.setFile_proc, Kernel.setProc_proc, Function.update_self, Proc.setVma_vma]
          by_cases here : i = slot
          · subst here
            rw [Function.update_self]
            exact Or.inr valid.2
          · rw [Function.update_of_ne here]
            exact Or.inl rfl

/-- The offsets of all regions are not negative. -/
def Kernel.Offsets (k : Kernel Ip σ) : Prop :=
  ∀ q i, ((k.proc q).vma i).used = true → 0 ≤ ((k.proc q).vma i).offset.toInt

theorem step_offsets {label : Label} (placed : k.Placed) (offsets : k.Offsets)
    (step : k.Step layer label k') : k'.Offsets := by
  intro q i used
  rcases step_tables placed.idle (step_procs step) q with ⟨p, shrinks⟩ |
    ⟨args, slot, assigned, v, rfl, place, -, -, table⟩
  · have same := shrinks i used
    rw [same] at used ⊢
    exact offsets p i used
  · obtain ⟨r, run⟩ := step.2
    rcases sys_mmap_offset run i with same | positive
    · have here : (k'.proc q).vma i = (k.proc q).vma i := same
      rw [here] at used ⊢
      exact offsets q i used
    · exact positive

theorem offsets_of_run (boot : start.NoRegions) (run : Run (Kernel.Step layer) start labels k) :
    k.Offsets := by
  have at_boot : start.Offsets := by
    intro q i used
    rw [boot q i] at used
    cases used
  have both := @Run.invariant _ _ _ _ _ _ (fun k => k.Placed ∧ k.Offsets)
    (fun _ _ _ here step => ⟨step_placed here.1 step, step_offsets here.1 here.2 step⟩)
    ⟨boot.placed, at_boot⟩ run
  exact both.2

/-! ### Turns of `mappages` -/

/-- A turn that succeeds makes one entry. -/
theorem mapPage_true {s s' : Space} {vpn : Nat} {pte : Pte}
    (run : mapPage vpn pte s = .ok (true, s')) :
    s.table.leaf vpn = none ∧ s'.table.leaf = Function.update s.table.leaf vpn (some pte) ∧
      s'.ram.page = s.ram.page := by
  have page := mapPage_page run
  rw [mapPage] at run
  dsimp only at run
  split_ifs at run with high reached mapped <;> cases run
  rw [Space.walk_leaf] at mapped
  refine ⟨not_not.mp mapped, ?_, page⟩
  rw [← s.walk_leaf vpn]
  rfl

/-- What a fault that maps its pages has done: one page if it is at the start of a page, else two. -/
theorem mappages_true {s s' : Space} {pte : Pte} (low : addr < TRAPFRAME)
    (run : mappages addr PGSIZE pte s = .ok (true, s')) :
    s'.ram.page = s.ram.page ∧ s.table.leaf (addr / PGSIZE) = none ∧
      (addr % PGSIZE = 0 →
        s'.table.leaf = Function.update s.table.leaf (addr / PGSIZE) (some pte)) ∧
      (addr % PGSIZE ≠ 0 → s.table.leaf (addr / PGSIZE + 1) = none ∧
        s'.table.leaf (addr / PGSIZE + 1) ≠ none) := by
  rw [mappages_eq low] at run
  by_cases aligned : addr % PGSIZE = 0
  · rw [if_pos aligned, mapPages] at run
    obtain ⟨made, s₁, first, rest⟩ := bind_ends.mp run
    cases made with
    | false => cases rest
    | true =>
      cases rest
      obtain ⟨absent, leaf, page⟩ := mapPage_true first
      exact ⟨page, absent, fun _ => leaf, fun inside => absurd aligned inside⟩
  · rw [if_neg aligned, mapPages] at run
    obtain ⟨made, s₁, first, rest⟩ := bind_ends.mp run
    cases made with
    | false => cases rest
    | true =>
      obtain ⟨absent, leaf, page⟩ := mapPage_true first
      rw [if_pos rfl, mapPages] at rest
      obtain ⟨made, s₂, second, rest⟩ := bind_ends.mp rest
      cases made with
      | false => cases rest
      | true =>
        cases rest
        obtain ⟨fresh, leaf', page'⟩ := mapPage_true second
        rw [leaf, Function.update_of_ne (Nat.succ_ne_self _)] at fresh
        refine ⟨page'.trans page, absent, fun start => absurd start aligned, fun _ => ⟨fresh, ?_⟩⟩
        rw [leaf', Function.update_self]
        exact Option.some_ne_none _

/-! ### Faults that complete -/

/-- `readi` copies bytes of the file to a kernel buffer, as far as there are any. -/
structure ReadsFile (layer : FileLayer Ip σ) (content : σ → Ip → List UInt8) : Prop where
  bytes : ∀ fs ip off n, off.toNat + n.toNat < 2 ^ 32 →
    (layer.readi fs ip off n).2 = ((content fs ip).drop off.toNat).take n.toNat
  accepted : ∀ fs ip off n, 0 ≤ (layer.readi fs ip off n).1

/-- A fault that completes without killing the process has read the file of the first region that covers
the address, and mapped what it read. -/
theorem pageFault_done (accepted : ∀ fs ip off n, 0 ≤ (layer.readi fs ip off n).1)
    (fault : pageFault layer pid addr k = .ok ((), k')) (alive : (k'.proc pid).killed = false) :
    ∃ j frame rest ip s', VmaTable.find (k.proc pid).vma addr = some j ∧
      (k.file ((k.proc pid).vma j).file).ip = some ip ∧
      mappages addr PGSIZE (((k.proc pid).vma j).entry frame)
        ((k.lentTo frame rest (layer.readi k.fs ip (((k.proc pid).vma j).fileOffset addr)
          (UInt32.ofNat PGSIZE)).2).space pid) = .ok (true, s') ∧
      (k'.proc pid).pagetable = s'.table ∧ k'.ram = s'.ram := by
  have killed : ∀ {k₁ : Kernel Ip σ}, setkilled pid k₁ ≠ .ok ((), k') := by
    intro k₁ run
    rw [modifyProc_ends.mp run, Kernel.setProc_proc, Function.update_self] at alive
    cases alive
  cases found : VmaTable.find (k.proc pid).vma addr with
  | none =>
    rw [pageFault, found] at fault
    cases fault
  | some j =>
    cases free : k.ram.free with
    | nil =>
      rw [pageFault_exhausted found free] at fault
      exact absurd fault killed
    | cons frame rest =>
      by_cases lockable : k.Lockable layer ((k.proc pid).vma j).file
      case neg =>
        rw [pageFault_ilock found (by rw [free]; exact List.cons_ne_nil _ _) lockable] at fault
        cases fault
      case pos =>
        obtain ⟨ip, inode, referenced⟩ := lockable
        rw [pageFault_maps found free inode referenced accepted] at fault
        obtain ⟨⟨mapped, k₁⟩, maps, finish⟩ := bind_eq_ok.mp fault
        obtain ⟨s', run, rfl⟩ := inSpace_ends.mp maps
        cases mapped with
        | false =>
          obtain ⟨⟨⟨⟩, k₂⟩, -, kill⟩ := bind_eq_ok.mp finish
          exact absurd kill killed
        | true =>
          cases finish
          refine ⟨j, frame, rest, ip, s', rfl, inode, run, ?_, rfl⟩
          rw [Kernel.setSpace_proc, Function.update_self, Proc.setTable_pagetable]

/-- Byte `b` of the page of an address in a region that maps a file with these bytes. -/
def Vma.pageByte (v : Vma) (bytes : List UInt8) (a b : Nat) : UInt8 :=
  bytes.getD (v.offset.toInt.toNat + (PGROUNDDOWN a - v.addr) + b) 0

/-- The page of the address has become mapped, with the bytes of the file of region `v`, and no other
entry has changed. -/
def ShowsPage (content : σ → Ip → List UInt8) (k k' : Kernel Ip σ) (pid : Pid) (v : Vma) (addr : Nat) :
    Prop :=
  ∃ pte ip, (k.proc pid).pagetable.leaf (addr / PGSIZE) = none ∧ (k'.proc pid).pagetable.leaf =
      Function.update (k.proc pid).pagetable.leaf (addr / PGSIZE) (some pte) ∧
    (k.file v.file).ip = some ip ∧
    ∀ b < PGSIZE, k'.ram.page pte.frame b = v.pageByte (content k.fs ip) addr b

/-- The first region that covers the address is `v`, or shows there what `v` does. -/
def FoundLike (content : σ → Ip → List UInt8) (k : Kernel Ip σ) (pid : Pid) (i : Fin VMASIZE)
    (addr : Nat) : Prop :=
  ∃ j, VmaTable.find (k.proc pid).vma addr = some j ∧ (j = i ∨
    ∃ ip ip', (k.file ((k.proc pid).vma i).file).ip = some ip ∧
      (k.file ((k.proc pid).vma j).file).ip = some ip' ∧
      ∀ b < PGSIZE, ((k.proc pid).vma j).pageByte (content k.fs ip') addr b =
        ((k.proc pid).vma i).pageByte (content k.fs ip) addr b)

/-- The offset that the branch computes for the start of a page. -/
theorem fileOffset_toNat {v : Vma} {slot : Nat} (placed : v.Placed slot)
    (positive : 0 ≤ v.offset.toInt) (inside : addr ∈ v.range) (aligned : addr % PGSIZE = 0) :
    (v.fileOffset addr).toNat = v.offset.toInt.toNat + (PGROUNDDOWN addr - v.addr) ∧
      (v.fileOffset addr).toNat + (UInt32.ofNat PGSIZE).toNat < 2 ^ 32 := by
  have start := placed.aligned
  have pages := placed.pages
  have size := v.size_lt
  have upper := v.offset.toInt_lt
  obtain ⟨lower, below⟩ := inside
  have page : PGROUNDDOWN addr = addr := Nat.div_mul_cancel (Nat.dvd_of_mod_eq_zero aligned)
  have wide : (UInt32.ofNat PGSIZE).toNat = PGSIZE := rfl
  rw [page, wide]
  have value : (v.fileOffset addr).toNat = v.offset.toInt.toNat + (addr - v.addr) := by
    rw [Vma.fileOffset, UInt32.ofInt, UInt32.toNat_ofNat']
    omega
  unfold PGSIZE at *
  omega

/-- The page that the branch fills at the start of a page of a region. -/
theorem filled_pageByte {content : σ → Ip → List UInt8} (reads : ReadsFile layer content) {v : Vma}
    {slot : Nat} (placed : v.Placed slot) (positive : 0 ≤ v.offset.toInt) (inside : addr ∈ v.range)
    (aligned : addr % PGSIZE = 0) (fs : σ) (ip : Ip) {b : Nat} (small : b < PGSIZE) :
    pageOf (layer.readi fs ip (v.fileOffset addr) (UInt32.ofNat PGSIZE)).2 b =
      v.pageByte (content fs ip) addr b := by
  obtain ⟨offset, fits⟩ := fileOffset_toNat placed positive inside aligned
  have wide : (UInt32.ofNat PGSIZE).toNat = PGSIZE := rfl
  rw [pageOf, reads.bytes _ _ _ _ fits, offset, wide, Vma.pageByte, List.getD_eq_getElem?_getD,
    List.getElem?_take_of_lt small, List.getElem?_drop, List.getD_eq_getElem?_getD]

/-- **Which page a fault shows.** In a reachable state, a region covers an address and a fault at the
address completes. Then the page of the address is the one that is new, with
the bytes of the region's file and zeros past its end, exactly if the address is the start of a page and
the first region that covers it is this one, or shows the same there. -/
theorem fault_shows_page {content : σ → Ip → List UInt8} (reads : ReadsFile layer content)
    (boot : start.NoRegions) (run : Run (Kernel.Step layer) start labels k)
    (used : ((k.proc pid).vma i).used = true) (inside : addr ∈ ((k.proc pid).vma i).range)
    (fault : pageFault layer pid addr k = .ok ((), k')) (alive : (k'.proc pid).killed = false) :
    ShowsPage content k k' pid ((k.proc pid).vma i) addr ↔
      addr % PGSIZE = 0 ∧ FoundLike content k pid i addr := by
  have tables := (placed_of_run boot run).tables pid
  have offsets := offsets_of_run boot run pid
  obtain ⟨j, frame, rest, ip, s', found, inode, maps, table, ram⟩ :=
    pageFault_done reads.accepted fault alive
  have covers := (VmaTable.find_eq_some_iff.mp found).1
  have used' : ((k.proc pid).vma j).used = true := by
    rw [Vma.contains, Bool.and_eq_true, Bool.and_eq_true] at covers
    exact covers.1.1
  have inside' := ((tables j used').contains_iff.mp covers).2
  have low : addr < TRAPFRAME := lt_of_lt_of_le inside'.2 (tables j used').top
  obtain ⟨page, absent, first, second⟩ := mappages_true low maps
  rw [ShowsPage, table]
  by_cases aligned : addr % PGSIZE = 0
  · rw [and_iff_right aligned]
    have leaf : s'.table.leaf = Function.update (k.proc pid).pagetable.leaf (addr / PGSIZE)
        (some (((k.proc pid).vma j).entry frame)) := first aligned
    have bytes : ∀ b < PGSIZE, k'.ram.page frame b =
        ((k.proc pid).vma j).pageByte (content k.fs ip) addr b := by
      intro b small
      rw [ram, page]
      show Function.update k.ram.page frame (pageOf _) frame b = _
      rw [Function.update_self]
      exact filled_pageByte reads (tables j used') (offsets j used') inside' aligned k.fs ip small
    constructor
    · rintro ⟨pte, ip', -, same, inode', shown⟩
      have isEntry : pte = ((k.proc pid).vma j).entry frame := by
        have here := congrFun (same.symm.trans leaf) (addr / PGSIZE)
        rw [Function.update_self, Function.update_self] at here
        exact Option.some.inj here
      subst isEntry
      exact ⟨j, found, Or.inr ⟨ip', ip, inode', inode, fun b small =>
        (bytes b small).symm.trans (shown b small)⟩⟩
    · rintro ⟨j', found', like⟩
      obtain rfl := Option.some.inj (found.symm.trans found')
      rcases like with rfl | ⟨ip₁, ip₂, inode₁, inode₂, same⟩
      · exact ⟨_, ip, absent, leaf, inode, bytes⟩
      · obtain rfl := Option.some.inj (inode.symm.trans inode₂)
        exact ⟨_, ip₁, absent, leaf, inode₁, fun b small => (bytes b small).trans (same b small)⟩
  · refine iff_of_false ?_ fun both => aligned both.1
    rintro ⟨pte, -, -, leaf, -⟩
    obtain ⟨fresh, mapped⟩ := second aligned
    rw [leaf, Function.update_of_ne (Nat.succ_ne_self _)] at mapped
    exact mapped fresh

theorem oneFile_reads : ReadsFile oneFile fun file _ => file where
  bytes _ _ _ _ _ := rfl
  accepted _ _ _ _ := Int.natCast_nonneg _

/-- A fault that completed without killing its process. -/
def faulted (k : Kernel Unit (List UInt8)) (addr : Nat) : Option (Kernel Unit (List UInt8)) :=
  match pageFault oneFile firstPid addr k with
  | .ok ((), k') => if (k'.proc firstPid).killed = false then some k' else none
  | .error _ => none

theorem faulted_ends {k k' : Kernel Unit (List UInt8)} (ends : faulted k addr = some k') :
    pageFault oneFile firstPid addr k = .ok ((), k') ∧ (k'.proc firstPid).killed = false := by
  unfold faulted at ends
  split at ends
  · next k₁ run =>
    split_ifs at ends with alive
    cases ends
    exact ⟨run, alive⟩
  · cases ends

/-- A fault at the start of the only page. -/
theorem fault_shows_page_small : ∃ k k', Run (Kernel.Step oneFile) (smallKernel .inode (some ()))
      [mapPagesOf 4096 1 2] k ∧ pageFault oneFile firstPid topPage.toNat k = .ok ((), k') ∧
    ShowsPage (fun file _ => file) k k' firstPid ((k.proc firstPid).vma ⟨0, by decide⟩)
      topPage.toNat := by
  have replayed : (replay oneFile (fun _ _ => true) [mapPagesOf 4096 1 2]
      (smallKernel .inode (some ()))).any fun k => (faulted k topPage.toNat).any fun _ =>
        ((k.proc firstPid).vma ⟨0, by decide⟩).used &&
        ((k.proc firstPid).vma ⟨0, by decide⟩).addr == topPage.toNat &&
        ((k.proc firstPid).vma ⟨0, by decide⟩).size == 4096 &&
        VmaTable.find (k.proc firstPid).vma topPage.toNat == some ⟨0, by decide⟩ := by
    decide +kernel
  obtain ⟨k, reached, checks⟩ := (Option.any_eq_true _ _).mp replayed
  obtain ⟨k', ends, checks⟩ := (Option.any_eq_true _ _).mp checks
  simp only [Bool.and_eq_true, beq_iff_eq] at checks
  obtain ⟨⟨⟨used, addr⟩, size⟩, found⟩ := checks
  have run := (run_of_replay (fun _ _ => True) (fun _ _ _ => trivial) reached).mono
    fun _ _ _ => And.left
  obtain ⟨fault, alive⟩ := faulted_ends ends
  have inside : topPage.toNat ∈ ((k.proc firstPid).vma ⟨0, by decide⟩).range := by
    rw [Vma.range, addr, size]
    exact ⟨le_rfl, Nat.lt_add_of_pos_right (by decide)⟩
  exact ⟨k, k', run, fault, (fault_shows_page oneFile_reads (smallKernel_noRegions _ _) run used inside
    fault alive).mpr ⟨by decide, _, found, Or.inl rfl⟩⟩

/-- **A fault inside a page maps two.** With two pages mapped, a load from the second byte of the first
one makes both resident, and its first byte is the second of the file. -/
theorem fault_maps_two_pages : ∃ k k', Run (Kernel.Step oneFile) (smallKernel .inode (some ()))
      [mapPagesOf 8192 1 2] k ∧ ((k.proc firstPid).vma ⟨0, by decide⟩).used = true ∧
    topPage.toNat - 4095 ∈ ((k.proc firstPid).vma ⟨0, by decide⟩).range ∧
    (k.proc firstPid).pagetable.leaf ((topPage.toNat - 4095) / PGSIZE) = none ∧
    pageFault oneFile firstPid (topPage.toNat - 4095) k = .ok ((), k') ∧
    (k'.proc firstPid).killed = false ∧ k'.byteAt firstPid (topPage.toNat - 4096) = some 101 ∧
    ¬ ShowsPage (fun file _ => file) k k' firstPid ((k.proc firstPid).vma ⟨0, by decide⟩)
      (topPage.toNat - 4095) := by
  have replayed : (replay oneFile (fun _ _ => true) [mapPagesOf 8192 1 2]
      (smallKernel .inode (some ()))).any fun k => (faulted k (topPage.toNat - 4095)).any fun k' =>
        ((k.proc firstPid).vma ⟨0, by decide⟩).used &&
        ((k.proc firstPid).vma ⟨0, by decide⟩).addr == topPage.toNat - 4096 &&
        ((k.proc firstPid).vma ⟨0, by decide⟩).size == 8192 &&
        ((k.proc firstPid).pagetable.leaf ((topPage.toNat - 4095) / PGSIZE)).isNone &&
        ((k.proc firstPid).pagetable.leaf ((topPage.toNat - 4095) / PGSIZE + 1)).isNone &&
        ((k'.proc firstPid).pagetable.leaf ((topPage.toNat - 4095) / PGSIZE + 1)).isSome &&
        k'.byteAt firstPid (topPage.toNat - 4096) == some 101 := by
    decide +kernel
  obtain ⟨k, reached, checks⟩ := (Option.any_eq_true _ _).mp replayed
  obtain ⟨k', ends, checks⟩ := (Option.any_eq_true _ _).mp checks
  simp only [Bool.and_eq_true, beq_iff_eq, Option.isNone_iff_eq_none] at checks
  obtain ⟨⟨⟨⟨⟨⟨used, addr⟩, size⟩, absent⟩, absent'⟩, mapped⟩, byte⟩ := checks
  obtain ⟨fault, alive⟩ := faulted_ends ends
  refine ⟨k, k', (run_of_replay (fun _ _ => True) (fun _ _ _ => trivial) reached).mono
    fun _ _ _ => And.left, used, ?_, absent, fault, alive, byte, ?_⟩
  · rw [Vma.range, addr, size]
    exact ⟨by decide, by decide⟩
  · rintro ⟨pte, ip, -, leaf, -⟩
    rw [leaf, Function.update_of_ne (Nat.succ_ne_self _), absent'] at mapped
    cases mapped

end Csc3150.Mmap
