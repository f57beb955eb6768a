/-
**Physical pages and page tables.**

`kalloc` and `kfree` keep the free pages in a list; a user page table is the list of the pages that
make up its tree together with the entries at the leaves. Frames are physical page numbers and
`vpn` is a virtual page number. The functions of `vm.c` on one page table are programs over a
`Space`, the memory and that table.

* `PageTable.rooted` — an entry is set only under page-table pages that exist;
* `Space.walk` — allocates the page-table pages on the way to an entry, as far as memory lasts;
* `mappages`, `uvmunmap`, `uvmcopy`, `proc_pagetable`, `proc_freepagetable`.

`Ram.lent` is no data of the kernel: it records the pages that the page-fault branch of `usertrap`
obtained and that were not given back yet.
-/

import Csc3150.Library.ByteBuffer
import Csc3150.Library.Program
import Csc3150.Mmap.Vma

namespace Csc3150.Mmap

open ByteBuffer Outcome Program

/-- The calls of `panic` that end the kernel, and the wild accesses that do. -/
inductive Panic
  | walk
  | remap
  | notAligned
  | unmapWalk
  | leaf
  | pteShouldExist
  | filedup
  | fileclose
  | ilock
  | syscallMmap
  | noMatchingVma
  | initExiting
  | wildPointer
  deriving DecidableEq

/-! ### Physical memory -/

/-- Physical memory: the free list, the contents of the pages, and the pages lent to users. -/
structure Ram where
  free : List Nat
  lent : List Nat
  page : Nat → Buffer

namespace Ram

/-- Give a page back. -/
def kfree (ram : Ram) (frame : Nat) : Ram :=
  { ram with free := frame :: ram.free, lent := ram.lent.erase frame }

/-- Fill a page. -/
def fill (ram : Ram) (frame : Nat) (bytes : Buffer) : Ram :=
  { ram with page := Function.update ram.page frame bytes }

variable (ram : Ram) (frame : Nat) (bytes : Buffer)

@[simp] theorem kfree_free : (ram.kfree frame).free = frame :: ram.free := rfl
@[simp] theorem kfree_lent : (ram.kfree frame).lent = ram.lent.erase frame := rfl
@[simp] theorem fill_free : (ram.fill frame bytes).free = ram.free := rfl
@[simp] theorem fill_lent : (ram.fill frame bytes).lent = ram.lent := rfl

end Ram

/-! ### Page tables -/

/-- A valid leaf entry: the frame and the permission bits. -/
structure Pte where
  frame : Nat
  r : Bool
  w : Bool
  x : Bool
  u : Bool
  deriving DecidableEq

/-- A page of the tree: its level, and which page of that level it is. -/
structure TablePage where
  level : Nat
  index : Nat
  frame : Nat
  deriving DecidableEq

/-- The index at a level of the page-table page on the way to page `vpn`. -/
def PX (level vpn : Nat) : Nat := vpn / 512 ^ (level + 1)

/-- The tree has its page of a level on the way to page `vpn`. -/
def HasPage (pages : List TablePage) (level vpn : Nat) : Prop :=
  ∃ page ∈ pages, page.level = level ∧ page.index = PX level vpn

instance (pages : List TablePage) (level vpn : Nat) : Decidable (HasPage pages level vpn) :=
  inferInstanceAs (Decidable (∃ page ∈ pages, _))

/-- The tree has its pages of both inner levels on the way to page `vpn`. -/
def Reaches (pages : List TablePage) (vpn : Nat) : Prop :=
  HasPage pages 1 vpn ∧ HasPage pages 0 vpn

instance (pages : List TablePage) (vpn : Nat) : Decidable (Reaches pages vpn) :=
  inferInstanceAs (Decidable (_ ∧ _))

theorem HasPage.cons {pages : List TablePage} {level vpn : Nat} (has : HasPage pages level vpn)
    (page : TablePage) : HasPage (page :: pages) level vpn := by
  obtain ⟨old, member, at_level⟩ := has
  exact ⟨old, List.mem_cons_of_mem _ member, at_level⟩

theorem HasPage.head (pages : List TablePage) (level vpn frame : Nat) :
    HasPage (⟨level, PX level vpn, frame⟩ :: pages) level vpn :=
  ⟨_, List.mem_cons_self, rfl, rfl⟩

/-- A user page table; one without pages is the null pointer. -/
structure PageTable where
  pages : List TablePage
  leaf : Nat → Option Pte
  rooted : ∀ vpn, leaf vpn ≠ none → Reaches pages vpn

namespace PageTable

def null : PageTable := ⟨[], fun _ => none, fun _ absent => absurd rfl absent⟩

/-- Add a page to the tree. -/
def addPage (table : PageTable) (page : TablePage) : PageTable where
  pages := page :: table.pages
  leaf := table.leaf
  rooted vpn present := ⟨(table.rooted vpn present).1.cons page, (table.rooted vpn present).2.cons page⟩

/-- Set the entry of a page that the tree reaches. -/
def set (table : PageTable) (vpn : Nat) (pte : Pte) (reached : Reaches table.pages vpn) :
    PageTable where
  pages := table.pages
  leaf := Function.update table.leaf vpn (some pte)
  rooted other present := by
    by_cases same : other = vpn
    · exact same ▸ reached
    · rw [Function.update_of_ne same] at present
      exact table.rooted other present

/-- Clear the entry of a page. -/
def clear (table : PageTable) (vpn : Nat) : PageTable where
  pages := table.pages
  leaf := Function.update table.leaf vpn none
  rooted other present := by
    by_cases same : other = vpn
    · rw [same, Function.update_self] at present
      exact absurd rfl present
    · rw [Function.update_of_ne same] at present
      exact table.rooted other present

end PageTable

/-! ### Functions on one address space -/

/-- Physical memory and a page table. -/
structure Space where
  ram : Ram
  table : PageTable

/-- A kernel path through one address space. -/
abbrev VmProg (α : Type) := Prog Panic Space α

/-- Take a page off the free list. -/
def kalloc : VmProg (Option Nat) := fun s =>
  match s.ram.free with
  | [] => .ok (none, s)
  | frame :: rest => .ok (some frame, { s with ram := { s.ram with free := rest } })

/-- Give a page back. -/
def kfree (frame : Nat) : VmProg Unit := fun s => .ok ((), { s with ram := s.ram.kfree frame })

/-- Add the page of a level on the way to page `vpn`, if it is missing and memory is left. -/
def Space.grow (s : Space) (level vpn : Nat) : Space :=
  if HasPage s.table.pages level vpn then s
  else
    match s.ram.free with
    | [] => s
    | frame :: rest =>
      ⟨{ s.ram with free := rest }, s.table.addPage ⟨level, PX level vpn, frame⟩⟩

/-- `walk` with `alloc` set: the entry is there afterwards when the tree reaches the page. -/
def Space.walk (s : Space) (vpn : Nat) : Space :=
  let s := s.grow 1 vpn
  if HasPage s.table.pages 1 vpn then s.grow 0 vpn else s

/-- The entry of a user page; one that the tree does not reach is as absent as one that is clear. -/
def PageTable.walkaddr (table : PageTable) (va : Nat) : Option Pte :=
  if MAXVA ≤ va then none
  else
    match table.leaf (va / PGSIZE) with
    | some pte => if pte.u then some pte else none
    | none => none

/-- One turn of `mappages`. -/
def mapPage (vpn : Nat) (pte : Pte) : VmProg Bool := fun s =>
  if MAXVA ≤ vpn * PGSIZE then .error .walk
  else
    let s := s.walk vpn
    if reached : Reaches s.table.pages vpn then
      if s.table.leaf vpn ≠ none then .error .remap
      else .ok (true, { s with table := s.table.set vpn pte reached })
    else .ok (false, s)

/-- The loop of `mappages` over `count` pages from `vpn` on; `false` is `-1`. -/
def mapPages (vpn : Nat) (pte : Pte) : (count : Nat) → VmProg Bool
  | 0 => pure true
  | count + 1 => do
    if ← mapPage vpn pte then mapPages (vpn + 1) { pte with frame := pte.frame + 1 } count
    else return false

/-- Create entries for the pages from the one of `va` to the one of `va + size - 1`. -/
def mappages (va size : Nat) (pte : Pte) : VmProg Bool :=
  let a := PGROUNDDOWN va
  let last := PGROUNDDOWN (word (va + size - 1))
  mapPages (a / PGSIZE) pte (last / PGSIZE - a / PGSIZE + 1)

/-- The pages of a loop `for(a = start; a < stop; a += PGSIZE)` between page boundaries. -/
def pagesBetween (start stop : Nat) : List Nat :=
  List.range' (start / PGSIZE) (stop / PGSIZE - start / PGSIZE)

theorem mem_pagesBetween {start stop vpn : Nat} :
    vpn ∈ pagesBetween start stop ↔ start / PGSIZE ≤ vpn ∧ vpn < stop / PGSIZE := by
  rw [pagesBetween, List.mem_range'_1]
  omega

theorem nodup_pagesBetween (start stop : Nat) : (pagesBetween start stop).Nodup :=
  List.nodup_range'

/-- One turn of `uvmunmap`; a `walk` that does not allocate fails where the tree ends. -/
def unmapPage (do_free : Bool) (vpn : Nat) : VmProg Unit := fun s =>
  if MAXVA ≤ vpn * PGSIZE then .error .walk
  else if ¬ Reaches s.table.pages vpn then .error .unmapWalk
  else
    match s.table.leaf vpn with
    | none => .ok ((), s)
    | some pte =>
      let ram := if do_free then s.ram.kfree pte.frame else s.ram
      .ok ((), ⟨ram, s.table.clear vpn⟩)

/-- Remove `npages` of mappings from `va` on; skip entries that are clear. -/
def uvmunmap (va npages : Nat) (do_free : Bool) : VmProg Unit :=
  if va % PGSIZE ≠ 0 then throw .notAligned
  else (pagesBetween va (word (va + npages * PGSIZE))).forM (unmapPage do_free)

/-- Give back the pages of the tree; no leaf may be left. -/
def freewalk : VmProg Unit := fun s =>
  if ∀ vpn < MAXVA / PGSIZE, s.table.leaf vpn = none then
    .ok ((), ⟨s.table.pages.foldl (fun ram page => ram.kfree page.frame) s.ram, .null⟩)
  else .error .leaf

/-- Free user memory, then the tree. -/
def uvmfree (sz : Nat) : VmProg Unit := do
  if 0 < sz then uvmunmap 0 (PGROUNDUP sz / PGSIZE) true
  freewalk

/-- The frame of the trampoline code. -/
def trampoline : Nat := 0

/-- A page table with the trampoline and the trapframe only; `false` when memory runs out. -/
def proc_pagetable (trapframe : Nat) : VmProg Bool := do
  match ← kalloc with
  | none => return false
  | some root =>
    fun s => .ok ((), { s with table := PageTable.null.addPage ⟨2, 0, root⟩ })
    if ← mappages TRAMPOLINE PGSIZE ⟨trampoline, true, false, true, false⟩ then
      if ← mappages TRAPFRAME PGSIZE ⟨trapframe, true, true, false, false⟩ then return true
      else
        uvmunmap TRAMPOLINE 1 false
        uvmfree 0
        return false
    else
      uvmfree 0
      return false

/-- Free a process's page table and the memory it refers to. -/
def proc_freepagetable (sz : Nat) : VmProg Unit := do
  uvmunmap TRAMPOLINE 1 false
  uvmunmap TRAPFRAME 1 false
  uvmfree sz

/-- The loop of `uvmcopy` over the pages `vpn` of the parent that are left; the result is the page
at which it failed. -/
def copyPages (old : PageTable) : List Nat → VmProg (Option Nat)
  | [] => pure none
  | vpn :: rest => do
    if ¬ Reaches old.pages vpn then throw .pteShouldExist
    else
      match old.leaf vpn with
      | none => copyPages old rest
      | some pte =>
        match ← kalloc with
        | none => return some vpn
        | some mem =>
          fun s => .ok ((), { s with ram := s.ram.fill mem (s.ram.page pte.frame) })
          if ← mappages (vpn * PGSIZE) PGSIZE { pte with frame := mem } then copyPages old rest
          else
            kfree mem
            return some vpn

/-- Copy the memory of a parent below `sz` into a child's page table; `false` is `-1`. -/
def uvmcopy (old : PageTable) (sz : Nat) : VmProg Bool := do
  match ← copyPages old (pagesBetween 0 (PGROUNDUP sz)) with
  | none => return true
  | some failed =>
    uvmunmap 0 failed true
    return false

end Csc3150.Mmap
