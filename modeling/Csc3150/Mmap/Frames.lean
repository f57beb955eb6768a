/-
**Where the frames are.**

`Space.frames` is the multiset of the frames of one address space: the free list, the pages of the tree,
and the entries below the trapframe. Every function of `vm.c` keeps it, up to the pages that it takes or
gives back, and the entries that it clears without `kfree`.

* `kalloc_frames`, `kfree_frames`, `mapPage_frames`, `unmapped_frames` — one page;
* `uvmunmap_frames`, `uvmfree_frames`, `proc_pagetable_frames`, `uvmcopy_frames` — the loops.
-/

import Csc3150.Mmap.Teardown
import Mathlib.Algebra.BigOperators.Group.Finset.Basic
import Mathlib.Algebra.Order.Group.Multiset
import Mathlib.Data.Fintype.BigOperators

namespace Csc3150.Mmap

open ByteBuffer Outcome Program Search

/-! ### Definitions -/

/-- The frame of an entry. -/
def frameOf : Option Pte → Multiset Nat
  | none => 0
  | some pte => {pte.frame}

/-- The pages below the trapframe. -/
@[irreducible] def userPages : Finset Nat := Finset.range (TRAPFRAME / PGSIZE)

/-- The frames of the entries below the trapframe. -/
def userFrames (leaf : Nat → Option Pte) : Multiset Nat := ∑ vpn ∈ userPages, frameOf (leaf vpn)

/-- The frames of the tree and of the entries below the trapframe. -/
def PageTable.frames (table : PageTable) : Multiset Nat :=
  (table.pages.map TablePage.frame : List Nat) + userFrames table.leaf

def Space.frames (s : Space) : Multiset Nat := (s.ram.free : Multiset Nat) + s.table.frames

theorem mem_userPages {vpn : Nat} : vpn ∈ userPages ↔ vpn < TRAPFRAME / PGSIZE := by
  rw [userPages, Finset.mem_range]

/-- Changing an entry trades its frame. -/
theorem userFrames_update (leaf : Nat → Option Pte) {vpn : Nat} (user : vpn ∈ userPages)
    (entry : Option Pte) : userFrames (Function.update leaf vpn entry) + frameOf (leaf vpn) =
      userFrames leaf + frameOf entry := by
  have others : ∑ other ∈ userPages.erase vpn, frameOf (Function.update leaf vpn entry other) =
      ∑ other ∈ userPages.erase vpn, frameOf (leaf other) :=
    Finset.sum_congr rfl fun other member => by
      rw [Function.update_of_ne (Finset.ne_of_mem_erase member)]
  unfold userFrames
  rw [← Finset.add_sum_erase _ _ user, ← Finset.add_sum_erase _ (fun vpn => frameOf (leaf vpn)) user,
    others, Function.update_self]
  exact add_right_comm _ _ _ |>.trans (by rw [add_comm (frameOf entry), add_right_comm])

/-- Entries from the trapframe on do not count. -/
theorem userFrames_update_high (leaf : Nat → Option Pte) {vpn : Nat} (high : vpn ∉ userPages)
    (entry : Option Pte) : userFrames (Function.update leaf vpn entry) = userFrames leaf :=
  Finset.sum_congr rfl fun other member => by
    rw [Function.update_of_ne (ne_of_mem_of_not_mem member high)]

theorem userFrames_zero {leaf : Nat → Option Pte} (empty : ∀ vpn ∈ userPages, leaf vpn = none) :
    userFrames leaf = 0 :=
  Finset.sum_eq_zero fun vpn user => by rw [empty vpn user, frameOf]

/-! ### Page tables -/

variable {s s' : Space}

/-- The page that `kalloc` hands out leaves the free list. -/
theorem kalloc_frames {found : Option Nat} (run : kalloc s = .ok (found, s')) :
    s'.table = s.table ∧ s'.frames + (found.elim 0 fun frame => {frame}) = s.frames := by
  unfold kalloc at run
  split at run
  · cases run
    exact ⟨rfl, add_zero _⟩
  · next frame rest free =>
    cases run
    refine ⟨rfl, ?_⟩
    simp only [Space.frames, free, Option.elim_some]
    rw [← Multiset.cons_coe, ← Multiset.singleton_add]
    exact add_comm _ _ |>.trans (add_assoc _ _ _).symm

/-- `kfree` puts its page there. -/
theorem kfree_frames (s : Space) (frame : Nat) :
    (⟨s.ram.kfree frame, s.table⟩ : Space).frames = s.frames + {frame} := by
  simp only [Space.frames, Ram.kfree_free]
  rw [← Multiset.cons_coe, ← Multiset.singleton_add, add_assoc, add_comm]

theorem grow_frames (s : Space) (level vpn : Nat) : (s.grow level vpn).frames = s.frames := by
  unfold Space.grow
  split
  · rfl
  · split
    · rfl
    · next frame rest free =>
      simp only [Space.frames, PageTable.frames, PageTable.addPage, List.map_cons, free]
      rw [← Multiset.cons_coe, ← Multiset.cons_coe, Multiset.cons_add, Multiset.cons_add,
        Multiset.add_cons]

/-- Pages for the tree move from the free list to the page table. -/
theorem walk_frames (s : Space) (vpn : Nat) : (s.walk vpn).frames = s.frames := by
  unfold Space.walk
  dsimp only
  split
  · rw [grow_frames, grow_frames]
  · exact grow_frames s 1 vpn

/-- The frame that a new entry adds. -/
def mappedFrame (made : Bool) (vpn : Nat) (pte : Pte) : Multiset Nat :=
  if made = true ∧ vpn ∈ userPages then {pte.frame} else 0

/-- A new entry brings its frame, when the tree has room for it. -/
theorem mapPage_frames {vpn : Nat} {pte : Pte} {made : Bool}
    (run : mapPage vpn pte s = .ok (made, s')) :
    s'.frames = s.frames + mappedFrame made vpn pte := by
  unfold mapPage at run
  split at run
  · cases run
  · dsimp only at run
    split at run
    · split at run
      · cases run
      · next reached fresh =>
        cases run
        rw [← walk_frames s vpn, mappedFrame]
        have leaf : ((s.walk vpn).table.set vpn pte reached).leaf =
          Function.update (s.walk vpn).table.leaf vpn (some pte) := rfl
        have pages : ((s.walk vpn).table.set vpn pte reached).pages = (s.walk vpn).table.pages := rfl
        simp only [Space.frames, PageTable.frames, leaf, pages, true_and]
        have empty : frameOf ((s.walk vpn).table.leaf vpn) = 0 := by rw [not_not.mp fresh, frameOf]
        split
        · next user =>
          have added := userFrames_update (s.walk vpn).table.leaf user (some pte)
          rw [empty, add_zero] at added
          rw [added, frameOf]
          simp only [add_assoc]
        · next high => rw [userFrames_update_high _ high, add_zero]
    · cases run
      rw [walk_frames, mappedFrame, if_neg fun both => absurd both.1 nofun, add_zero]

/-- `mappages` of one whole page. -/
theorem mappages_frames {va : Nat} {pte : Pte} {made : Bool} (aligned : va % PGSIZE = 0)
    (small : va + PGSIZE ≤ 2 ^ 64) (run : mappages va PGSIZE pte s = .ok (made, s')) :
    s'.frames = s.frames + mappedFrame made (va / PGSIZE) pte := by
  have one : PGROUNDDOWN (word (va + PGSIZE - 1)) / PGSIZE - va / PGSIZE + 1 = 1 := by
    rw [PGROUNDDOWN_div]
    unfold PGSIZE at *
    unfold word
    omega
  rw [mappages, PGROUNDDOWN_div, one, mapPages] at run
  obtain ⟨mapped, s₁, first, rest⟩ := bind_ends.mp run
  split at rest
  · next is_made =>
    cases rest
    rw [mapPage_frames first, is_made]
  · next failed =>
    cases rest
    rw [mapPage_frames first, Bool.eq_false_iff.mpr failed]

/-! ### Unmapping -/

/-- Unmapping a page gives its frame to the free list, or loses it. -/
theorem unmapped_frames (do_free : Bool) {vpn : Nat} (user : vpn ∈ userPages) (s : Space) :
    (s.unmapped do_free vpn).frames + (if do_free then 0 else frameOf (s.table.leaf vpn)) =
      s.frames := by
  unfold Space.unmapped
  split
  · next absent => rw [absent, frameOf, ite_self, add_zero]
  · next pte present =>
    have cleared := userFrames_update s.table.leaf user none
    rw [present] at cleared ⊢
    have less : (⟨s.ram, s.table.clear vpn⟩ : Space).frames + frameOf (some pte) = s.frames := by
      have leaf : (s.table.clear vpn).leaf = Function.update s.table.leaf vpn none := rfl
      have pages : (s.table.clear vpn).pages = s.table.pages := rfl
      simp only [Space.frames, PageTable.frames, leaf, pages, add_assoc, cleared]
      rw [frameOf, add_zero]
    cases do_free with
    | false => exact less
    | true => exact (add_zero _).trans ((kfree_frames ⟨s.ram, s.table.clear vpn⟩ pte.frame).trans less)

theorem unmapped_frames_high {vpn : Nat} (high : vpn ∉ userPages) (s : Space) :
    (s.unmapped false vpn).frames = s.frames := by
  unfold Space.unmapped
  split
  · rfl
  · have leaf : (s.table.clear vpn).leaf = Function.update s.table.leaf vpn none := rfl
    have pages : (s.table.clear vpn).pages = s.table.pages := rfl
    simp only [Space.frames, PageTable.frames, leaf, pages, userFrames_update_high _ high,
      Bool.false_eq_true, if_false]

/-- Without `do_free` the frames of the range are lost. -/
theorem unmapPages_frames (do_free : Bool) {pages : List Nat} (distinct : pages.Nodup)
    (user : ∀ vpn ∈ pages, vpn ∈ userPages) :
    Ensures (pages.forM (unmapPage do_free)) s fun _ s' => s'.frames +
      (if do_free then 0 else ∑ vpn ∈ pages.toFinset, frameOf (s.table.leaf vpn)) = s.frames := by
  induction pages generalizing s with
  | nil => exact .pure (by rw [List.toFinset_nil, Finset.sum_empty, ite_self, add_zero])
  | cons page rest ih =>
    rw [List.nodup_cons] at distinct
    rintro ⟨⟩ s' run
    obtain ⟨⟨⟩, s₁, first, later⟩ := bind_ends.mp run
    obtain ⟨-, rfl⟩ := unmapPage_iff.mp first
    have here := unmapped_frames do_free (user page List.mem_cons_self) s
    have there := ih distinct.2 (fun vpn member => user vpn (List.mem_cons_of_mem _ member)) () s' later
    have leaf := unmapPage_leaf first
    have same : ∑ vpn ∈ rest.toFinset, frameOf ((s.unmapped do_free page).table.leaf vpn) =
        ∑ vpn ∈ rest.toFinset, frameOf (s.table.leaf vpn) := by
      refine Finset.sum_congr rfl fun vpn member => ?_
      rw [leaf, Function.update_of_ne]
      exact ne_of_mem_of_not_mem (List.mem_toFinset.mp member) distinct.1
    rw [same] at there
    rw [List.toFinset_cons, Finset.sum_insert (mt List.mem_toFinset.mp distinct.1)]
    cases do_free with
    | true => exact there.trans ((add_zero _).symm.trans here)
    | false =>
      rw [← here, ← there]
      simp only [Bool.false_eq_true, if_false]
      rw [add_comm (frameOf _), ← add_assoc]

theorem user_of_le {start stop vpn : Nat} (low : stop ≤ TRAPFRAME) (member : vpn ∈ pagesBetween start stop) :
    vpn ∈ userPages :=
  mem_userPages.mpr (Nat.lt_of_lt_of_le (mem_pagesBetween.mp member).2 (Nat.div_le_div_right low))

/-- The pages of a range below the trapframe. -/
theorem uvmunmap_frames {va npages : Nat} {do_free : Bool} (low : word (va + npages * PGSIZE) ≤ TRAPFRAME)
    (run : uvmunmap va npages do_free s = .ok ((), s')) : s'.frames + (if do_free then 0 else
      ∑ vpn ∈ (pagesBetween va (word (va + npages * PGSIZE))).toFinset, frameOf (s.table.leaf vpn)) =
        s.frames := by
  unfold uvmunmap at run
  split at run
  · cases run
  · exact unmapPages_frames do_free (nodup_pagesBetween _ _) (fun vpn => user_of_le low) () s' run

/-- The pages of a range above, which are not given back. -/
theorem uvmunmap_frames_high {va npages : Nat} (high : TRAPFRAME ≤ va)
    (run : uvmunmap va npages false s = .ok ((), s')) : s'.frames = s.frames := by
  unfold uvmunmap at run
  split at run
  · cases run
  · have keeps : Ensures ((pagesBetween va (word (va + npages * PGSIZE))).forM (unmapPage false)) s
        fun _ s' => s'.frames = s.frames := by
      refine Ensures.forM_invariant rfl ?_
      rintro vpn member s₁ same ⟨⟩ s₂ step
      obtain ⟨-, rfl⟩ := unmapPage_iff.mp step
      rw [unmapped_frames_high _ s₁, same]
      rw [mem_userPages, Nat.not_lt]
      exact (Nat.div_le_div_right high).trans (mem_pagesBetween.mp member).1
    exact keeps () s' run

/-- The pages of a tree, freed one by one. -/
theorem kfree_pages (pages : List TablePage) (ram : Ram) :
    ((pages.foldl (fun ram page => ram.kfree page.frame) ram).free : Multiset Nat) =
      (pages.map TablePage.frame : List Nat) + ram.free := by
  induction pages generalizing ram with
  | nil => rw [List.map_nil, Multiset.coe_nil, zero_add]; rfl
  | cons page rest ih =>
    rw [List.foldl_cons, ih, Ram.kfree_free, List.map_cons, ← Multiset.cons_coe, ← Multiset.cons_coe,
      Multiset.cons_add, Multiset.add_cons]

theorem null_frames : PageTable.null.frames = 0 := by
  have empty : userFrames PageTable.null.leaf = 0 := userFrames_zero fun _ _ => rfl
  rw [PageTable.frames, empty]
  rfl

/-- `freewalk` gives the pages of the tree back. -/
theorem freewalk_frames (run : freewalk s = .ok ((), s')) : s'.frames = s.frames ∧ s'.table = .null := by
  unfold freewalk at run
  split at run
  · next cleared =>
    cases run
    have empty : userFrames s.table.leaf = 0 := userFrames_zero fun vpn user => cleared vpn <|
      Nat.lt_of_lt_of_le (mem_userPages.mp user) (by decide)
    refine ⟨?_, rfl⟩
    simp only [Space.frames, null_frames, kfree_pages, add_zero]
    rw [PageTable.frames, empty, add_zero, add_comm]
  · cases run

theorem PGROUNDUP_le {sz : Nat} (sized : sz ≤ TRAPFRAME) : PGROUNDUP sz ≤ TRAPFRAME := by
  unfold PGROUNDUP PGROUNDDOWN word
  unfold TRAPFRAME TRAMPOLINE MAXVA PGSIZE at *
  omega

/-- So does `uvmfree`, with the pages of the heap. -/
theorem uvmfree_frames {sz : Nat} (sized : sz ≤ TRAPFRAME) (run : uvmfree sz s = .ok ((), s')) :
    s'.frames = s.frames ∧ s'.table = .null := by
  have low := PGROUNDUP_le sized
  have stop : word ((0 : Nat) + (PGROUNDUP sz / PGSIZE : Nat) * PGSIZE) ≤ TRAPFRAME := by
    unfold word
    unfold TRAPFRAME TRAMPOLINE MAXVA PGSIZE at *
    omega
  unfold uvmfree at run
  split at run
  · obtain ⟨⟨⟩, s₁, unmapped, walked⟩ := bind_ends.mp run
    obtain ⟨kept, null⟩ := freewalk_frames walked
    exact ⟨kept.trans ((add_zero _).symm.trans (uvmunmap_frames stop unmapped)), null⟩
  · exact freewalk_frames run

/-- And `proc_freepagetable`, whose two entries above do not count. -/
theorem proc_freepagetable_frames {sz : Nat} (sized : sz ≤ TRAPFRAME)
    (run : proc_freepagetable sz s = .ok ((), s')) : s'.frames = s.frames ∧ s'.table = .null := by
  obtain ⟨⟨⟩, s₁, first, rest⟩ := bind_ends.mp run
  obtain ⟨⟨⟩, s₂, second, last⟩ := bind_ends.mp rest
  obtain ⟨kept, null⟩ := uvmfree_frames sized last
  refine ⟨?_, null⟩
  rw [kept, uvmunmap_frames_high le_rfl second, uvmunmap_frames_high (by decide) first]

/-! ### Making and copying page tables -/

/-- A page table with nothing below the trapframe. -/
theorem proc_pagetable_frames {trapframe : Nat} {made : Bool} (empty : s.table.frames = 0)
    (run : proc_pagetable trapframe s = .ok (made, s')) : s'.frames = s.frames := by
  have high : ∀ {va : Nat} {made pte}, TRAPFRAME ≤ va → mappedFrame made (va / PGSIZE) pte = 0 :=
    fun above => if_neg fun both => absurd (mem_userPages.mp both.2)
      (Nat.not_lt.mpr (Nat.div_le_div_right above))
  obtain ⟨root, s₁, allocated, rest⟩ := bind_ends.mp run
  obtain ⟨table, less⟩ := kalloc_frames allocated
  cases root with
  | none =>
    cases rest
    exact (add_zero _).symm.trans less
  | some root =>
    obtain ⟨⟨⟩, s₂, rooted, rest⟩ := bind_ends.mp rest
    cases rooted
    have start : Space.frames ⟨s₁.ram, PageTable.null.addPage ⟨2, 0, root⟩⟩ = s.frames := by
      have none : userFrames (PageTable.null.addPage ⟨2, 0, root⟩).leaf = 0 :=
        userFrames_zero fun _ _ => rfl
      rw [← less, Option.elim_some, Space.frames, Space.frames, PageTable.frames, none, table, empty]
      simp only [add_zero]
      rfl
    obtain ⟨mapped, s₃, first, rest⟩ := bind_ends.mp rest
    have one := mappages_frames (by decide) (by decide) first
    rw [high (by decide), add_zero, start] at one
    split at rest
    · obtain ⟨mapped', s₄, second, rest⟩ := bind_ends.mp rest
      have two := mappages_frames (by decide) (by decide) second
      rw [high le_rfl, add_zero, one] at two
      split at rest
      · cases rest
        exact two
      · obtain ⟨⟨⟩, s₅, unmapped, rest⟩ := bind_ends.mp rest
        obtain ⟨⟨⟩, s₆, freed, rest⟩ := bind_ends.mp rest
        cases rest
        rw [(uvmfree_frames (Nat.zero_le _) freed).1, uvmunmap_frames_high (by decide) unmapped, two]
    · obtain ⟨⟨⟩, s₄, freed, rest⟩ := bind_ends.mp rest
      cases rest
      rw [(uvmfree_frames (Nat.zero_le _) freed).1, one]

/-- A copy moves from the free list to the new page table. -/
theorem copyPages_frames {old : PageTable} {pages : List Nat} {failed : Option Nat}
    (user : ∀ vpn ∈ pages, vpn ∈ userPages) (run : copyPages old pages s = .ok (failed, s')) :
    s'.frames = s.frames ∧ ∀ vpn, failed = some vpn → vpn ∈ userPages := by
  induction pages generalizing s with
  | nil =>
    cases run
    exact ⟨rfl, nofun⟩
  | cons vpn rest ih =>
    have here := user vpn List.mem_cons_self
    have later := fun {s₁} => @ih s₁ fun vpn member => user vpn (List.mem_cons_of_mem _ member)
    have low := mem_userPages.mp here
    have aligned : vpn * PGSIZE % PGSIZE = 0 := Nat.mul_mod_left _ _
    have small : vpn * PGSIZE + PGSIZE ≤ 2 ^ 64 := by
      unfold TRAPFRAME TRAMPOLINE MAXVA PGSIZE at *
      omega
    unfold copyPages at run
    split at run
    · cases run
    generalize old.leaf vpn = entry at run
    cases entry with
    | none => exact later run
    | some pte =>
      obtain ⟨mem, s₁, allocated, run⟩ := bind_ends.mp run
      obtain ⟨-, less⟩ := kalloc_frames allocated
      cases mem with
      | none =>
        cases run
        exact ⟨(add_zero _).symm.trans less, fun _ same => by cases same; exact here⟩
      | some mem =>
        obtain ⟨⟨⟩, s₂, filled, run⟩ := bind_ends.mp run
        cases filled
        obtain ⟨mapped, s₃, first, run⟩ := bind_ends.mp run
        have more := mappages_frames aligned small first
        rw [Nat.mul_div_cancel _ PGSIZE_pos] at more
        split at run
        · next is_mapped =>
          obtain ⟨kept, fails⟩ := later run
          refine ⟨?_, fails⟩
          rw [kept, more, mappedFrame, if_pos ⟨is_mapped, here⟩]
          exact less
        · next unmapped =>
          obtain ⟨⟨⟩, s₄, freed, run⟩ := bind_ends.mp run
          cases freed
          cases run
          refine ⟨?_, fun _ same => by cases same; exact here⟩
          rw [mappedFrame, if_neg fun both => unmapped both.1, add_zero] at more
          rw [kfree_frames, more]
          exact less

theorem uvmcopy_frames {old : PageTable} {sz : Nat} {copied : Bool} (sized : sz ≤ TRAPFRAME)
    (run : uvmcopy old sz s = .ok (copied, s')) : s'.frames = s.frames := by
  obtain ⟨failed, s₁, pages, rest⟩ := bind_ends.mp run
  obtain ⟨kept, fails⟩ := copyPages_frames (fun vpn => user_of_le (PGROUNDUP_le sized)) pages
  split at rest
  · cases rest
    exact kept
  · next vpn =>
    obtain ⟨⟨⟩, s₂, unmapped, rest⟩ := bind_ends.mp rest
    cases rest
    have low := mem_userPages.mp (fails vpn rfl)
    have stop : word ((0 : Nat) + (vpn : Nat) * PGSIZE) ≤ TRAPFRAME := by
      unfold word
      unfold TRAPFRAME TRAMPOLINE MAXVA PGSIZE at *
      omega
    rw [← kept, ← uvmunmap_frames stop unmapped]
    exact (add_zero _).symm

end Csc3150.Mmap
