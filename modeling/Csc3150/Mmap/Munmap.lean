/-
**What `sys_munmap` removes.**

`sys_munmap` unmaps the pages of the requested range, wherever they are, and touches the region it
found only when the range is the whole of it. So

* the addresses that the regions cover change as the request says when the range is empty or a whole
  region, and not otherwise (`munmap_removes`);
* pages outside the region are left alone when the range has no mapped page there, and not otherwise
  (`munmap_touches`).
-/

import Csc3150.Mmap.Regions
import Mathlib.Data.Finset.Card
import Mathlib.Data.Fintype.Basic

namespace Csc3150.Mmap

open Outcome Program Transition

variable {Ip σ : Type} {layer : FileLayer Ip σ} {k k' : Kernel Ip σ} {pid : Pid}

/-! ### Unmapping a range of pages -/

/-- An address space after a page is unmapped. -/
def Space.unmapped (do_free : Bool) (vpn : Nat) (s : Space) : Space :=
  match s.table.leaf vpn with
  | none => s
  | some pte => ⟨if do_free then s.ram.kfree pte.frame else s.ram, s.table.clear vpn⟩

/-- Unmapping leaves the tree alone. -/
theorem Space.unmapped_pages (s : Space) {do_free : Bool} {vpn : Nat} :
    (s.unmapped do_free vpn).table.pages = s.table.pages := by
  unfold unmapped
  split <;> rfl

theorem Space.unmapped_leaf (s : Space) {do_free : Bool} {vpn : Nat} :
    (s.unmapped do_free vpn).table.leaf = Function.update s.table.leaf vpn none := by
  unfold unmapped
  split
  · next absent => rw [← absent, Function.update_eq_self]
  · rfl

/-- A page can be unmapped when the tree reaches it, whether it is mapped or not. -/
theorem unmapPage_iff {do_free : Bool} {vpn : Nat} {s s' : Space} :
    unmapPage do_free vpn s = .ok ((), s') ↔
      (vpn * PGSIZE < MAXVA ∧ Reaches s.table.pages vpn) ∧ s' = s.unmapped do_free vpn := by
  unfold unmapPage Space.unmapped
  by_cases high : MAXVA ≤ vpn * PGSIZE
  · rw [if_pos high]
    exact ⟨nofun, fun both => absurd both.1.1 (by omega)⟩
  rw [if_neg high]
  by_cases reaches : Reaches s.table.pages vpn
  · rw [if_neg (not_not.mpr reaches), and_iff_right ⟨by omega, reaches⟩, eq_comm (a := s')]
    cases s.table.leaf vpn <;> exact ⟨fun run => by cases run; rfl, fun same => by cases same; rfl⟩
  · rw [if_pos reaches]
    exact ⟨nofun, fun both => absurd both.1.2 reaches⟩

/-- One page is unmapped. -/
theorem unmapPage_leaf {do_free : Bool} {vpn : Nat} {s s' : Space}
    (run : unmapPage do_free vpn s = .ok ((), s')) :
    s'.table.leaf = Function.update s.table.leaf vpn none := by
  obtain ⟨-, rfl⟩ := unmapPage_iff.mp run
  exact s.unmapped_leaf

/-- Pages can be unmapped in turn exactly when the tree reaches all of them. -/
theorem unmapPages_ends_iff {do_free : Bool} {vpns : List Nat} (s : Space) :
    (∃ s', vpns.forM (unmapPage do_free) s = .ok ((), s')) ↔
      ∀ vpn ∈ vpns, vpn * PGSIZE < MAXVA ∧ Reaches s.table.pages vpn := by
  induction vpns generalizing s with
  | nil => exact iff_of_true ⟨s, rfl⟩ fun vpn member => absurd member List.not_mem_nil
  | cons vpn rest ih =>
    rw [List.forall_mem_cons]
    constructor
    · rintro ⟨s', run⟩
      obtain ⟨⟨⟩, s₁, first, later⟩ := bind_ends.mp run
      obtain ⟨here, rfl⟩ := unmapPage_iff.mp first
      have others := (ih _).mp ⟨s', later⟩
      rw [s.unmapped_pages] at others
      exact ⟨here, others⟩
    · rintro ⟨here, others⟩
      rw [← s.unmapped_pages] at others
      obtain ⟨s', run⟩ := (ih (s.unmapped do_free vpn)).mpr others
      exact ⟨s', bind_ends.mpr ⟨(), _, unmapPage_iff.mpr ⟨here, rfl⟩, run⟩⟩

/-- The pages of the range are unmapped and the others stay. -/
theorem uvmunmap_leaf {va npages : Nat} {do_free : Bool} {s s' : Space}
    (run : uvmunmap va npages do_free s = .ok ((), s')) (vpn : Nat) :
    s'.table.leaf vpn = if vpn ∈ pagesBetween va (word (va + npages * PGSIZE)) then none
      else s.table.leaf vpn := by
  rw [uvmunmap] at run
  split at run
  · cases run
  · refine Ensures.forM (fun done (s' : Space) => ∀ vpn, s'.table.leaf vpn =
      if vpn ∈ done then none else s.table.leaf vpn) _ ?_ ?_ () s' run vpn
    · exact fun vpn => (if_neg List.not_mem_nil).symm
    · rintro done page rest - s₁ holds ⟨⟩ s₂ run vpn
      rw [unmapPage_leaf run]
      by_cases same : vpn = page
      · subst same
        rw [Function.update_self, if_pos (List.mem_append_right _ List.mem_cons_self)]
      · rw [Function.update_of_ne same, holds vpn]
        simp only [List.mem_append, List.mem_singleton, same, or_false]

/-! ### The requested range -/

/-- The pages of a region. -/
def Vma.pages (v : Vma) : Set Nat := Set.Ico (v.addr / PGSIZE) ((v.addr + v.size) / PGSIZE)

instance (v : Vma) (vpn : Nat) : Decidable (vpn ∈ v.pages) :=
  inferInstanceAs (Decidable (v.addr / PGSIZE ≤ vpn ∧ vpn < (v.addr + v.size) / PGSIZE))

theorem PGROUNDUP_mod (sz : Nat) : PGROUNDUP sz % PGSIZE = 0 := PGROUNDDOWN_mod _

theorem PGROUNDUP_lt (sz : Nat) : PGROUNDUP sz < 2 ^ 64 := by
  have le := PGROUNDDOWN_le (word (sz + (PGSIZE - 1)))
  unfold PGROUNDUP
  unfold word at *
  omega

/-- The number of pages that `sys_munmap` computes is that of the range, also when it is empty. -/
theorem munmap_stop {start stop : Nat} (small : start < 2 ^ 64) (small' : stop < 2 ^ 64)
    (aligned : start % PGSIZE = 0) (aligned' : stop % PGSIZE = 0) :
    word (start + (word (stop - start) / PGSIZE : Nat) * PGSIZE) = stop := by
  unfold PGSIZE at *
  unfold word
  omega

variable {addr : Nat} {length : Int32} {i : Fin VMASIZE} {table : VmaTable}

/-- What is known of a request whose address lies in a region. -/
theorem munmapRange_facts (length : Int32) (placed : table.Placed)
    (found : VmaTable.find table addr = some i) :
    (munmapRange addr length).1 % PGSIZE = 0 ∧ (munmapRange addr length).2 % PGSIZE = 0 ∧
      (munmapRange addr length).1 < 2 ^ 64 ∧ (munmapRange addr length).2 < 2 ^ 64 ∧
      (munmapRange addr length).1 ∈ (table i).range ∧ (table i).used = true := by
  obtain ⟨contains, -⟩ := VmaTable.find_eq_some_iff.mp found
  have used : (table i).used = true := by
    rw [Vma.contains, Bool.and_eq_true, Bool.and_eq_true] at contains
    exact contains.1.1
  have here := placed i used
  obtain ⟨-, above, below⟩ := here.contains_iff.mp contains
  have top := here.top
  have aligned := here.aligned
  have down := PGROUNDDOWN_le addr
  have start : (table i).addr ≤ PGROUNDDOWN addr := by
    unfold PGROUNDDOWN PGSIZE at *
    omega
  unfold TRAPFRAME TRAMPOLINE MAXVA PGSIZE at top
  refine ⟨PGROUNDDOWN_mod _, PGROUNDUP_mod _, ?_, PGROUNDUP_lt _, ⟨start, ?_⟩, used⟩ <;>
  · unfold munmapRange
    omega

/-- A call that returns `0` has found a region, and has unmapped the pages of the range. -/
theorem sys_munmap_zero (placed : (k.proc pid).vma.Placed)
    (run : sys_munmap layer pid addr length k = .ok (0, k')) :
    ∃ i fs written s, VmaTable.find (k.proc pid).vma addr = some i ∧
      Unmaps layer pid (munmapRange addr length).1 (munmapRange addr length).2 i k k' fs written s ∧
      ∀ vpn, s.table.leaf vpn =
        if vpn ∈ pagesBetween (munmapRange addr length).1 (munmapRange addr length).2 then none
        else (k.proc pid).pagetable.leaf vpn := by
  rcases sys_munmap_ends run with ⟨failed, -⟩ | ⟨failed, -⟩ | ⟨-, i, fs, written, s, found, unmaps⟩
  · cases failed
  · cases failed
  · obtain ⟨aligned, aligned', small, small', -, -⟩ := munmapRange_facts length placed found
    refine ⟨i, fs, written, s, found, unmaps, fun vpn => ?_⟩
    rw [uvmunmap_leaf unmaps.unmaps, munmap_stop small small' aligned aligned']
    rfl

/-! ### The addresses that regions cover -/

/-- The address is in a region that maps it to byte `o` of a file. -/
def VmaTable.Maps (table : VmaTable) (a : Nat) (f : Fp) (o : Int) : Prop :=
  ∃ i, (table i).used = true ∧ a ∈ (table i).range ∧ (table i).file = f ∧
    (table i).offset.toInt + (a - (table i).addr) = o

/-- A range of addresses is no longer covered; every other address is as it was. -/
def VmaTable.Removes (table after : VmaTable) (range : Nat × Nat) : Prop :=
  ∀ a f o, after.Maps a f o ↔ table.Maps a f o ∧ ¬ (range.1 ≤ a ∧ a < range.2)

/-- The range is the whole region. -/
def Vma.Whole (v : Vma) (range : Nat × Nat) : Prop :=
  range.1 = v.addr ∧ range.2 = v.addr + v.size

theorem Vma.Placed.start_mem {v : Vma} {slot : Nat} {range : Nat × Nat} (placed : v.Placed slot)
    (whole : v.Whole range) : range.1 ∈ v.range := by
  have nonempty := placed.nonempty
  rw [whole.1]
  exact ⟨le_rfl, by omega⟩

/-- A call that returns `0` frees the slot of its region and drops the file when the range is whole,
and leaves regions and files alone otherwise. -/
theorem sys_munmap_zero_tables (placed : (k.proc pid).vma.Placed)
    (run : sys_munmap layer pid addr length k = .ok (0, k')) :
    ∃ i, ((k.proc pid).vma i).used = true ∧
      (munmapRange addr length).1 ∈ ((k.proc pid).vma i).range ∧
      (((k.proc pid).vma i).Whole (munmapRange addr length) ∧
          (k'.proc pid).vma = Function.update (k.proc pid).vma i ((k.proc pid).vma i).free ∧
          (∀ f, (k'.file f).ref =
            (k.file f).ref - if ((k.proc pid).vma i).file = f then 1 else 0) ∨
        ¬ ((k.proc pid).vma i).Whole (munmapRange addr length) ∧
          (k'.proc pid).vma = (k.proc pid).vma ∧ k'.file = k.file) := by
  obtain ⟨i, fs, written, s, found, unmaps, -⟩ := sys_munmap_zero placed run
  obtain ⟨-, -, -, -, start, used⟩ := munmapRange_facts length placed found
  have limit := (placed i used).limit_eq
  obtain ⟨procs, -, -⟩ := unmaps.proc
  have table := congrArg Proc.vma (congrFun procs pid)
  rw [Function.update_self, Proc.setVma_vma, limit] at table
  refine ⟨i, used, start, ?_⟩
  by_cases whole : (munmapRange addr length).1 = ((k.proc pid).vma i).addr ∧
      (munmapRange addr length).2 = ((k.proc pid).vma i).addr + ((k.proc pid).vma i).size
  · rw [if_pos whole] at table
    obtain ⟨-, file, fs', rfl, ref⟩ := closeVma_ends (unmaps.closes (limit ▸ whole))
    have same : ((({ k with fs := fs, written := written ++ k.written } :
        Kernel Ip σ).setSpace pid s).proc pid).vma = (k.proc pid).vma := by
      rw [Kernel.setSpace_proc, Function.update_self]
      rfl
    rw [same] at ref
    refine Or.inl ⟨whole, table, fun f => ?_⟩
    rw [Kernel.setProc_file, Kernel.setFile_file, same]
    by_cases here : ((k.proc pid).vma i).file = f
    · subst here
      rw [Function.update_self, if_pos rfl]
      exact ref
    · rw [Function.update_of_ne (Ne.symm here), if_neg here, sub_zero]
      rfl
  · rw [if_neg whole] at table
    exact Or.inr ⟨whole, table, by rw [unmaps.keeps (limit ▸ whole)]; rfl⟩

namespace VmaTable

variable {after : VmaTable} {range : Nat × Nat}

/-- Disjoint regions with a common address are one. -/
theorem Apart.same (apart : table.Apart) {j : Fin VMASIZE} {a : Nat} (used : (table i).used = true)
    (used' : (table j).used = true) (here : a ∈ (table i).range) (there : a ∈ (table j).range) :
    i = j := by
  by_contra different
  exact Set.disjoint_left.mp (apart i j different used used') here there

theorem removes_whole (apart : table.Apart) (used : (table i).used = true)
    (whole : (table i).Whole range) :
    table.Removes (Function.update table i (table i).free) range := by
  have inside : ∀ a, a ∈ (table i).range ↔ range.1 ≤ a ∧ a < range.2 := by
    intro a
    rw [whole.1, whole.2]
    rfl
  intro a f o
  constructor
  · rintro ⟨j, usedJ, here, file, offset⟩
    have different : j ≠ i := by
      rintro rfl
      rw [Function.update_self] at usedJ
      cases usedJ
    rw [Function.update_of_ne different] at usedJ here file offset
    refine ⟨⟨j, usedJ, here, file, offset⟩, fun removed => different ?_⟩
    exact apart.same usedJ used here ((inside a).mpr removed)
  · rintro ⟨⟨j, usedJ, here, file, offset⟩, kept⟩
    have different : j ≠ i := by
      rintro rfl
      exact kept ((inside a).mp here)
    refine ⟨j, ?_⟩
    rw [Function.update_of_ne different]
    exact ⟨usedJ, here, file, offset⟩

theorem removes_self_iff (used : (table i).used = true) (start : range.1 ∈ (table i).range) :
    table.Removes table range ↔ range.2 ≤ range.1 := by
  constructor
  · intro removes
    by_contra nonempty
    have covered := (removes range.1 _ _).mp ⟨i, used, start, rfl, rfl⟩
    exact covered.2 ⟨le_rfl, by omega⟩
  · intro empty a f o
    exact ⟨fun maps => ⟨maps, by omega⟩, And.left⟩

end VmaTable

/-- One call removes its range exactly when the range is empty or a whole region. -/
theorem sys_munmap_removes_iff (placed : (k.proc pid).vma.Placed) (apart : (k.proc pid).vma.Apart)
    (run : sys_munmap layer pid addr length k = .ok (0, k')) :
    (k.proc pid).vma.Removes (k'.proc pid).vma (munmapRange addr length) ↔
      (munmapRange addr length).2 ≤ (munmapRange addr length).1 ∨
        ∃ i, ((k.proc pid).vma i).used = true ∧
          ((k.proc pid).vma i).Whole (munmapRange addr length) := by
  obtain ⟨i, used, start, ⟨whole, after, -⟩ | ⟨part, after, -⟩⟩ := sys_munmap_zero_tables placed run
  · rw [after]
    exact iff_of_true (VmaTable.removes_whole apart used whole) (Or.inr ⟨i, used, whole⟩)
  · rw [after, VmaTable.removes_self_iff used start]
    refine (or_iff_left ?_).symm
    rintro ⟨j, usedJ, whole⟩
    obtain rfl := apart.same used usedJ start ((placed j usedJ).start_mem whole)
    exact part whole

/-- A call of `munmap` that returns `0`. -/
def UnmapStep (layer : FileLayer Ip σ) (pid : Pid) (k : Kernel Ip σ) (call : Nat × Int32)
    (k' : Kernel Ip σ) : Prop :=
  sys_munmap layer pid call.1 call.2 k = .ok (0, k')

/-- The slots of regions of a file that are used in one table and free in another. -/
def VmaTable.dropped (table after : VmaTable) (f : Fp) : Finset (Fin VMASIZE) :=
  Finset.univ.filter fun i =>
    (table i).used = true ∧ (after i).used = false ∧ (table i).file = f

theorem VmaTable.dropped_self (table : VmaTable) (f : Fp) : table.dropped table f = ∅ := by
  refine Finset.filter_eq_empty_iff.mpr fun i _ dropped => ?_
  rw [dropped.1] at dropped
  exact Bool.noConfusion dropped.2.1

/-- Freeing a slot first adds it to the slots that are dropped. -/
theorem VmaTable.card_dropped_free {after : VmaTable} (used : (table i).used = true)
    (shrinks : VmaTable.Shrinks (Function.update table i (table i).free) after) (f : Fp) :
    (table.dropped after f).card = (VmaTable.dropped (Function.update table i (table i).free)
      after f).card + if (table i).file = f then 1 else 0 := by
  have gone : (after i).used = false := by
    by_contra still
    have here := shrinks i (Bool.eq_true_of_not_eq_false still)
    rw [here, Function.update_self] at still
    exact still rfl
  have fresh : i ∉ VmaTable.dropped (Function.update table i (table i).free) after f := by
    intro member
    have here := (Finset.mem_filter.mp member).2.1
    rw [Function.update_self] at here
    cases here
  have others : ∀ j, j ≠ i → (j ∈ table.dropped after f ↔
      j ∈ VmaTable.dropped (Function.update table i (table i).free) after f) := by
    intro j different
    simp only [dropped, Finset.mem_filter, Function.update_of_ne different]
  split
  · next named =>
    rw [← Finset.card_insert_of_notMem fresh]
    congr 1
    ext j
    rw [Finset.mem_insert]
    by_cases same : j = i
    · subst same
      exact iff_of_true (Finset.mem_filter.mpr ⟨Finset.mem_univ j, used, gone, named⟩) (Or.inl rfl)
    · rw [others j same, or_iff_right same]
  · next unnamed =>
    rw [Nat.add_zero]
    congr 1
    ext j
    by_cases same : j = i
    · subst same
      exact iff_of_false (fun member => unnamed (Finset.mem_filter.mp member).2.2.2) fresh
    · exact others j same

section Runs

variable {calls : List (Nat × Int32)}

theorem unmapRun_shrinks (run : Run (UnmapStep layer pid) k calls k') :
    (k.proc pid).vma.Shrinks (k'.proc pid).vma := by
  induction run with
  | nil => exact .refl _
  | cons first _ ih =>
    intro i used
    have later := ih i used
    rw [later] at used ⊢
    exact (sys_munmap_procs first pid).vma i used

/-- A run of calls frees the slots of the regions that one of them unmaps whole. -/
theorem unmapRun_freed_iff (placed : (k.proc pid).vma.Placed) (apart : (k.proc pid).vma.Apart)
    (run : Run (UnmapStep layer pid) k calls k') {i : Fin VMASIZE}
    (used : ((k.proc pid).vma i).used = true) :
    ((k'.proc pid).vma i).used = false ↔
      ∃ call ∈ calls, ((k.proc pid).vma i).Whole (munmapRange call.1 call.2) := by
  induction run with
  | nil => exact ⟨fun free => absurd (used.symm.trans free) Bool.noConfusion, nofun⟩
  | @cons k middle k' call calls first rest ih =>
    have shrinks := (sys_munmap_procs first pid).vma
    obtain ⟨j, usedJ, start, ⟨whole, after, -⟩ | ⟨part, after, -⟩⟩ :=
      sys_munmap_zero_tables placed first
    · by_cases same : j = i
      · subst same
        refine iff_of_true ?_ ⟨call, List.mem_cons_self, whole⟩
        by_contra still
        have here := unmapRun_shrinks rest j (Bool.eq_true_of_not_eq_false still)
        rw [here, after, Function.update_self] at still
        exact still rfl
      · have kept : (middle.proc pid).vma i = (k.proc pid).vma i := by
          rw [after, Function.update_of_ne (Ne.symm same)]
        rw [ih (shrinks.placed placed) (shrinks.apart apart) (kept ▸ used), kept]
        refine ⟨fun ⟨c, member, whole'⟩ => ⟨c, .tail _ member, whole'⟩, ?_⟩
        rintro ⟨c, member, whole'⟩
        rcases List.mem_cons.mp member with rfl | later
        · exact absurd (apart.same usedJ used start ((placed i used).start_mem whole')) same
        · exact ⟨c, later, whole'⟩
    · rw [ih (shrinks.placed placed) (shrinks.apart apart) (after ▸ used), after]
      refine ⟨fun ⟨c, member, whole'⟩ => ⟨c, .tail _ member, whole'⟩, ?_⟩
      rintro ⟨c, member, whole'⟩
      rcases List.mem_cons.mp member with rfl | later
      · obtain rfl := apart.same usedJ used start ((placed i used).start_mem whole')
        exact absurd whole' part
      · exact ⟨c, later, whole'⟩

/-- A run of calls drops one reference for each slot that it frees. -/
theorem unmapRun_ref (placed : (k.proc pid).vma.Placed) (apart : (k.proc pid).vma.Apart)
    (run : Run (UnmapStep layer pid) k calls k') (f : Fp) :
    (k'.file f).ref = (k.file f).ref -
      ((k.proc pid).vma.dropped (k'.proc pid).vma f).card := by
  induction run with
  | nil =>
    rw [VmaTable.dropped_self, Finset.card_empty]
    exact (sub_zero _).symm
  | @cons k middle k' call calls first rest ih =>
    have shrinks := (sys_munmap_procs first pid).vma
    have tail := ih (shrinks.placed placed) (shrinks.apart apart)
    obtain ⟨j, used, -, ⟨-, after, ref⟩ | ⟨-, after, files⟩⟩ := sys_munmap_zero_tables placed first
    · have later := unmapRun_shrinks rest
      rw [after] at tail later
      rw [tail, ref, VmaTable.card_dropped_free used later]
      push_cast
      omega
    · rw [tail, after, files]

/-- **`munmap` removes whole regions and nothing less.** A call changes the covered addresses as its
range says exactly when the range is empty or a whole region; over a run of calls, in any order, the
slot of a region is freed exactly when one call unmaps the region whole, and each freed slot drops one
reference to its file. -/
theorem munmap_removes (placed : (k.proc pid).vma.Placed) (apart : (k.proc pid).vma.Apart) :
    (∀ addr length k', sys_munmap layer pid addr length k = .ok (0, k') →
      ((k.proc pid).vma.Removes (k'.proc pid).vma (munmapRange addr length) ↔
        (munmapRange addr length).2 ≤ (munmapRange addr length).1 ∨
          ∃ i, ((k.proc pid).vma i).used = true ∧
            ((k.proc pid).vma i).Whole (munmapRange addr length))) ∧
    ∀ calls k', Run (UnmapStep layer pid) k calls k' →
      (∀ i, ((k.proc pid).vma i).used = true → (((k'.proc pid).vma i).used = false ↔
        ∃ call ∈ calls, ((k.proc pid).vma i).Whole (munmapRange call.1 call.2))) ∧
      ∀ f, (k'.file f).ref = (k.file f).ref -
        ((k.proc pid).vma.dropped (k'.proc pid).vma f).card :=
  ⟨fun _ _ _ run => sys_munmap_removes_iff placed apart run, fun _ _ run =>
    ⟨fun _ used => unmapRun_freed_iff placed apart run used, unmapRun_ref placed apart run⟩⟩

end Runs

/-- Two regions, of which the upper one is unmapped whole. -/
theorem munmap_removes_small : ∃ k k', Run (Kernel.Step oneFile) (smallKernel .inode (some ()))
      [mapPagesOf 8192 3 2, mapPagesOf 4096 3 2] k ∧
    sys_munmap oneFile firstPid (topPage - 4096).toNat 8192 k = .ok (0, k') ∧
    (k.proc firstPid).vma.Removes (k'.proc firstPid).vma
      (munmapRange (topPage - 4096).toNat 8192) := by
  have replayed : (replay oneFile (fun k label => packed (k.proc label.pid).vma)
      [mapPagesOf 8192 3 2, mapPagesOf 4096 3 2] (smallKernel .inode (some ()))).any fun k =>
      ((k.proc firstPid).vma ⟨0, by decide⟩).used &&
        decide ((munmapRange (topPage - 4096).toNat 8192).1 =
            ((k.proc firstPid).vma ⟨0, by decide⟩).addr ∧
          (munmapRange (topPage - 4096).toNat 8192).2 =
            ((k.proc firstPid).vma ⟨0, by decide⟩).addr +
              ((k.proc firstPid).vma ⟨0, by decide⟩).size) &&
        returnsZero (sys_munmap oneFile firstPid (topPage - 4096).toNat 8192 k) := by
    decide +kernel
  rw [Option.any_eq_true] at replayed
  obtain ⟨k, reached, checks⟩ := replayed
  simp only [Bool.and_eq_true, decide_eq_true_eq] at checks
  obtain ⟨⟨used, whole⟩, zero⟩ := checks
  obtain ⟨k', call⟩ := ends_of_returnsZero zero
  have clear := run_of_replay ClearRequest
    (fun k label isPacked args _ => Or.inr (clear_of_packed isPacked _)) reached
  have run := clear.mono fun _ _ _ => And.left
  have boot := smallKernel_noRegions .inode (some ())
  refine ⟨k, k', run, call, ?_⟩
  exact ((munmap_removes ((placed_of_run boot run).tables firstPid)
    (apart_of_run boot clear firstPid)).1 _ _ k' call).mpr (Or.inr ⟨_, used, whole⟩)

/-- **Unmapping a region page by page leaves it in the table.** A region of two pages is unmapped one
page after the other: the first call does not remove its page, and after both the slot is used. -/
theorem munmap_keeps_region : ∃ k k' k'', Run (Kernel.Step oneFile) (smallKernel .inode (some ()))
      [mapPagesOf 8192 3 2] k ∧ (k.proc firstPid).vma.Apart ∧
    sys_munmap oneFile firstPid (topPage - 4096).toNat 4096 k = .ok (0, k') ∧
    ¬ (k.proc firstPid).vma.Removes (k'.proc firstPid).vma
      (munmapRange (topPage - 4096).toNat 4096) ∧
    sys_munmap oneFile firstPid topPage.toNat 4096 k' = .ok (0, k'') ∧
    ∃ i, ((k''.proc firstPid).vma i).used = true := by
  have replayed : (replay oneFile (fun k label => packed (k.proc label.pid).vma)
      [mapPagesOf 8192 3 2] (smallKernel .inode (some ()))).any fun k =>
      match sys_munmap oneFile firstPid (topPage - 4096).toNat 4096 k with
      | .ok (r, k') => r == 0 &&
        let v := (k'.proc firstPid).vma ⟨0, by decide⟩
        let range := munmapRange (topPage - 4096).toNat 4096
        decide (v.used = true ∧ v.addr ≤ range.1 ∧ range.1 < v.addr + v.size ∧ range.1 < range.2) &&
        match sys_munmap oneFile firstPid topPage.toNat 4096 k' with
        | .ok (r, k'') => r == 0 && ((k''.proc firstPid).vma ⟨0, by decide⟩).used
        | .error _ => false
      | .error _ => false := by
    decide +kernel
  rw [Option.any_eq_true] at replayed
  obtain ⟨k, reached, checks⟩ := replayed
  have clear := run_of_replay ClearRequest
    (fun k label isPacked args _ => Or.inr (clear_of_packed isPacked _)) reached
  have apart := apart_of_run (smallKernel_noRegions _ _) clear firstPid
  split at checks
  · next r k' first =>
    simp only [Bool.and_eq_true, beq_iff_eq, decide_eq_true_eq] at checks
    obtain ⟨rfl, ⟨used, above, below, nonempty⟩, second⟩ := checks
    split at second
    · next r k'' ran =>
      simp only [Bool.and_eq_true, beq_iff_eq] at second
      obtain ⟨rfl, still⟩ := second
      refine ⟨k, k', k'', clear.mono fun _ _ _ => And.left, apart, first, fun removes => ?_, ran,
        _, still⟩
      have covered := (removes _ _ _).mp ⟨_, used, ⟨above, below⟩, rfl, rfl⟩
      exact covered.2 ⟨le_rfl, nonempty⟩
    · cases second
  · cases checks

/-! ### Pages outside the region -/

/-- Outside the pages of the region, no page-table entry has changed and no page was written back. -/
structure TouchesOnly (pid : Pid) (v : Vma) (k k' : Kernel Ip σ) : Prop where
  others : ∀ q, q ≠ pid → (k'.proc q).pagetable = (k.proc q).pagetable
  entries : ∀ vpn, vpn ∉ v.pages →
    (k'.proc pid).pagetable.leaf vpn = (k.proc pid).pagetable.leaf vpn
  written : ∃ written, k'.written = written ++ k.written ∧ ∀ page ∈ written, page.vpn ∈ v.pages

/-- The requested range has no mapped page outside the region. -/
def NothingBeyond (k : Kernel Ip σ) (pid : Pid) (v : Vma) (range : Nat × Nat) : Prop :=
  ∀ vpn ∈ pagesBetween range.1 range.2, vpn ∉ v.pages → (k.proc pid).pagetable.leaf vpn = none

theorem NothingBeyond.written {v : Vma} {range : Nat × Nat} {written : List (Writeback Ip)}
    (nothing : NothingBeyond k pid v range)
    (resident : ∀ page ∈ written, page.vpn ∈ pagesBetween range.1 range.2 ∧
      (k.proc pid).pagetable.walkaddr (page.vpn * PGSIZE) ≠ none) :
    ∀ page ∈ written, page.vpn ∈ v.pages := by
  intro page member
  obtain ⟨inRange, mapped⟩ := resident page member
  by_contra outside
  have absent := nothing page.vpn inRange outside
  apply mapped
  rw [PageTable.walkaddr, Nat.mul_div_cancel _ PGSIZE_pos, absent]
  exact ite_self none

/-- **`sys_munmap` touches its region only exactly when the range has no mapped page beyond it.** -/
theorem munmap_touches (placed : (k.proc pid).vma.Placed)
    (found : VmaTable.find (k.proc pid).vma addr = some i) :
    (NothingBeyond k pid ((k.proc pid).vma i) (munmapRange addr length) →
      ∀ r k', sys_munmap layer pid addr length k = .ok (r, k') →
        TouchesOnly pid ((k.proc pid).vma i) k k') ∧
    ∀ k', sys_munmap layer pid addr length k = .ok (0, k') →
      (TouchesOnly pid ((k.proc pid).vma i) k k' ↔
        NothingBeyond k pid ((k.proc pid).vma i) (munmapRange addr length)) := by
  have unmapped : ∀ k', sys_munmap layer pid addr length k = .ok (0, k') →
      (TouchesOnly pid ((k.proc pid).vma i) k k' ↔
        NothingBeyond k pid ((k.proc pid).vma i) (munmapRange addr length)) := by
    intro k' run
    obtain ⟨j, fs, written, s, found', unmaps, leaf⟩ := sys_munmap_zero placed run
    obtain rfl : i = j := Option.some.inj (found.symm.trans found')
    obtain ⟨procs, -, wrote⟩ := unmaps.proc
    have own : (k'.proc pid).pagetable.leaf = s.table.leaf := by
      rw [procs, Function.update_self]
      rfl
    constructor
    · intro touches vpn inRange outside
      rw [← touches.entries vpn outside, own, leaf, if_pos inRange]
    · intro nothing
      refine ⟨fun q other => ?_, fun vpn outside => ?_, written, wrote,
        nothing.written unmaps.resident⟩
      · rw [procs, Function.update_of_ne other]
      · rw [own, leaf]
        split
        · next inRange => exact (nothing vpn inRange outside).symm
        · rfl
  refine ⟨fun nothing r k' run => ?_, unmapped⟩
  rcases sys_munmap_ends run with ⟨-, absent, -⟩ | ⟨-, fs, written, rfl, resident⟩ | ⟨rfl, -⟩
  · rw [found] at absent
    cases absent
  · exact ⟨fun _ _ => rfl, fun _ _ => rfl, written, rfl, nothing.written resident⟩
  · exact (unmapped k' run).mpr nothing

instance (k : Kernel Ip σ) (pid : Pid) (v : Vma) (range : Nat × Nat) :
    Decidable (NothingBeyond k pid v range) :=
  inferInstanceAs (Decidable (∀ vpn ∈ pagesBetween range.1 range.2, _ → _))

/-- Unmapping a shared region between two others, with its page resident. -/
theorem munmap_touches_small : ∃ k k' i, Run (Kernel.Step oneFile) (smallKernel .inode (some ()))
      [mapPagesOf 4096 3 2, mapPagesOf 4096 3 1, mapPagesOf 4096 3 2,
        ⟨firstPid, .access (topPage - 8192) (some 7)⟩] k ∧
    VmaTable.find (k.proc firstPid).vma (topPage - 8192).toNat = some i ∧
    sys_munmap oneFile firstPid (topPage - 8192).toNat 4096 k = .ok (0, k') ∧
    TouchesOnly firstPid ((k.proc firstPid).vma i) k k' := by
  have replayed : (replay oneFile (fun _ _ => true)
      [mapPagesOf 4096 3 2, mapPagesOf 4096 3 1, mapPagesOf 4096 3 2,
        ⟨firstPid, .access (topPage - 8192) (some 7)⟩] (smallKernel .inode (some ()))).any fun k =>
      VmaTable.find (k.proc firstPid).vma (topPage - 8192).toNat == some ⟨1, by decide⟩ &&
        decide (NothingBeyond k firstPid ((k.proc firstPid).vma ⟨1, by decide⟩)
          (munmapRange (topPage - 8192).toNat 4096)) &&
        returnsZero (sys_munmap oneFile firstPid (topPage - 8192).toNat 4096 k) := by
    decide +kernel
  rw [Option.any_eq_true] at replayed
  obtain ⟨k, reached, checks⟩ := replayed
  simp only [Bool.and_eq_true, beq_iff_eq, decide_eq_true_eq] at checks
  obtain ⟨⟨found, nothing⟩, zero⟩ := checks
  obtain ⟨k', call⟩ := ends_of_returnsZero zero
  have run := (run_of_replay (fun _ _ => True) (fun _ _ _ => trivial) reached).mono
    fun _ _ _ => And.left
  have placed := (placed_of_run (smallKernel_noRegions _ _) run).tables firstPid
  exact ⟨k, k', _, run, found, call, (munmap_touches placed found).1 nothing 0 k' call⟩

/-- **`sys_munmap` unmaps the trapframe.** The first region ends at the trapframe page; a request for
two pages from its start succeeds, and takes the trapframe out of the page table. -/
theorem munmap_unmaps_trapframe : ∃ k k' i, Run (Kernel.Step oneFile)
      (smallKernel .inode (some ())) [mapPagesOf 4096 3 2] k ∧
    VmaTable.find (k.proc firstPid).vma topPage.toNat = some i ∧
    sys_munmap oneFile firstPid topPage.toNat 8192 k = .ok (0, k') ∧
    (k.proc firstPid).pagetable.leaf (TRAPFRAME / PGSIZE) ≠ none ∧
    (k'.proc firstPid).pagetable.leaf (TRAPFRAME / PGSIZE) = none ∧
    ¬ TouchesOnly firstPid ((k.proc firstPid).vma i) k k' := by
  have replayed : (replay oneFile (fun _ _ => true) [mapPagesOf 4096 3 2]
      (smallKernel .inode (some ()))).any fun k =>
      VmaTable.find (k.proc firstPid).vma topPage.toNat == some ⟨0, by decide⟩ &&
        decide (TRAPFRAME / PGSIZE ∉ ((k.proc firstPid).vma ⟨0, by decide⟩).pages) &&
        decide ((k.proc firstPid).pagetable.leaf (TRAPFRAME / PGSIZE) ≠ none) &&
        match sys_munmap oneFile firstPid topPage.toNat 8192 k with
        | .ok (r, k') => r == 0 && (k'.proc firstPid).pagetable.leaf (TRAPFRAME / PGSIZE) == none
        | .error _ => false := by
    decide +kernel
  rw [Option.any_eq_true] at replayed
  obtain ⟨k, reached, checks⟩ := replayed
  simp only [Bool.and_eq_true, beq_iff_eq, decide_eq_true_eq] at checks
  obtain ⟨⟨⟨found, outside⟩, mapped⟩, call⟩ := checks
  split at call
  · next r k' ran =>
    simp only [Bool.and_eq_true, beq_iff_eq] at call
    obtain ⟨rfl, gone⟩ := call
    refine ⟨k, k', _, (run_of_replay (fun _ _ => True) (fun _ _ _ => trivial) reached).mono
      fun _ _ _ => And.left, found, ran, mapped, gone, fun touches => mapped ?_⟩
    rw [← touches.entries _ outside, gone]
  · cases call

end Csc3150.Mmap
