/-
**What a request of `mmap` does.**

* `regions_high` — in every reachable state the regions of every process are whole pages above `2^37`
  and below the trapframe, and no sum wraps;
* `sys_mmap_free` — an accepted request with a free slot; `sys_mmap_full` — one without;
* `sys_mmap_outcomes` — a request is refused, fills one slot, or finds the table full and panics;
* `sys_mmap_panics` — the panic.
-/

import Csc3150.Mmap.Regions

namespace Csc3150.Mmap

open Outcome Transition

variable {Ip σ : Type} {layer : FileLayer Ip σ} {start k k' : Kernel Ip σ} {labels : List Label}
  {pid : Pid} {args : MmapArgs}

/-! ### Where regions are -/

/-- **Regions are whole pages above `2^37` and below the trapframe**, however slots were freed and used
again; the end that the code computes does not wrap. -/
theorem regions_high (boot : start.NoRegions) (run : Run (Kernel.Step layer) start labels k) {q : Pid}
    {i : Fin VMASIZE} (used : ((k.proc q).vma i).used = true) :
    ((k.proc q).vma i).addr % PGSIZE = 0 ∧
    0 < ((k.proc q).vma i).length.toInt ∧ ((k.proc q).vma i).length.toInt % PGSIZE = 0 ∧
    ((k.proc q).vma i).limit = ((k.proc q).vma i).addr + ((k.proc q).vma i).size ∧
    ((k.proc q).vma i).addr + ((k.proc q).vma i).size ≤ MAXVA - 2 * PGSIZE ∧
    2 ^ 37 < ((k.proc q).vma i).addr ∧
    ∀ heap, heap ≤ 2 ^ 37 → Disjoint ((k.proc q).vma i).range (Set.Iio heap) := by
  have placed := (placed_of_run boot run).tables q i used
  have high := placed.high i.isLt
  have length := placed.length_eq
  refine ⟨placed.aligned, ?_, ?_, placed.limit_eq, placed.top, high, fun heap small => ?_⟩
  · rw [length]
    exact Int.natCast_pos.mpr placed.nonempty
  · rw [length]
    exact_mod_cast placed.pages
  · refine Set.disjoint_left.mpr fun a inRange below => ?_
    have above : ((k.proc q).vma i).addr ≤ a := inRange.1
    have under : a < heap := below
    omega

/-- The longest request, and a page below it. -/
theorem regions_high_small : ∃ k, Run (Kernel.Step oneFile) (smallKernel .inode (some ()))
      [mapPagesOf 2147479552 3 2, mapPagesOf 1 1 1] k ∧
    ((k.proc firstPid).vma ⟨1, by decide⟩).used = true ∧
    2 ^ 37 < ((k.proc firstPid).vma ⟨1, by decide⟩).addr := by
  have replayed : (replay oneFile (fun _ _ => true) [mapPagesOf 2147479552 3 2, mapPagesOf 1 1 1]
      (smallKernel .inode (some ()))).any fun k => ((k.proc firstPid).vma ⟨1, by decide⟩).used := by
    decide +kernel
  rw [Option.any_eq_true] at replayed
  obtain ⟨k, reached, used⟩ := replayed
  have run := (run_of_replay (fun _ _ => True) (fun _ _ _ => trivial) reached).mono fun _ _ _ => And.left
  exact ⟨k, run, used, (regions_high (smallKernel_noRegions _ _) run used).2.2.2.2.2.1⟩

/-! ### Outcomes of a request -/

theorem VmaTable.place_none {table : VmaTable} {assigned : Nat}
    (run : VmaTable.place table = (none, assigned)) (i : Fin VMASIZE) : (table i).used = true :=
  VmaTable.placeLoop_none run i (List.mem_finRange i)

theorem VmaTable.place_free {table : VmaTable} {slot : Fin VMASIZE} {assigned : Nat}
    (run : VmaTable.place table = (some slot, assigned)) : (table slot).used = false := by
  obtain ⟨-, -, -, -, free, -⟩ := VmaTable.placeLoop_eq run
  exact free

/-- The region that an accepted request is given. -/
def MmapArgs.region (args : MmapArgs) (f : Fp) (addr : Nat) : Vma :=
  ⟨addr, PGROUNDUP_int args.length, args.prot, args.flags, f, args.offset, true⟩

/-- A region in a slot, and a reference more to its file. -/
def Kernel.mapped (k : Kernel Ip σ) (pid : Pid) (slot : Fin VMASIZE) (v : Vma) : Kernel Ip σ :=
  (k.setProc pid ((k.proc pid).setVma (Function.update (k.proc pid).vma slot v))).setFile v.file
    { k.file v.file with ref := (k.file v.file).ref + 1 }

/-- An accepted request passes the checks. -/
theorem accepted_passes {f : Fp} (accepted : ¬args.Refused (some (k.file f))) :
    ¬((PGROUNDUP_int args.length).toInt ≤ 0 ∨ args.offset.toInt < 0) ∧
    ¬(args.prot &&& PROT_READ ≠ 0 ∧ (k.file f).readable = false) ∧
    ¬(args.prot &&& PROT_WRITE ≠ 0 ∧ (k.file f).writable = false ∧ args.flags &&& MAP_SHARED ≠ 0) := by
  rw [MmapArgs.Refused, not_or, not_or] at accepted
  obtain ⟨length, offset, allowed⟩ := accepted
  exact ⟨not_or.mpr ⟨length, offset⟩, not_or.mp fun denied => allowed ⟨k.file f, rfl, denied⟩⟩

/-- An accepted request and a free slot. -/
theorem sys_mmap_free {f : Fp} {slot : Fin VMASIZE} {assigned : Nat}
    (named : argfd (k.proc pid) args.fd = some f) (accepted : ¬args.Refused (some (k.file f)))
    (counted : 1 ≤ (k.file f).ref) (free : VmaTable.place (k.proc pid).vma = (some slot, assigned)) :
    ∃ addr : Nat, sys_mmap pid args k = .ok ((addr : Int), k.mapped pid slot (args.region f addr)) := by
  obtain ⟨valid, readable, writable⟩ := accepted_passes accepted
  refine ⟨word (assigned - (PGROUNDUP_int (PGROUNDUP_int args.length)).toInt), ?_⟩
  rw [sys_mmap]
  dsimp only
  rw [if_neg valid, named]
  show (if _ then _ else if _ then _ else _) = _
  rw [if_neg readable, if_neg writable, free]
  exact bind_of_ok (if_neg (Int.not_lt.mpr counted))

/-- An accepted request and a full table. -/
theorem sys_mmap_full {f : Fp} {assigned : Nat} (named : argfd (k.proc pid) args.fd = some f)
    (accepted : ¬args.Refused (some (k.file f)))
    (full : VmaTable.place (k.proc pid).vma = (none, assigned)) :
    sys_mmap pid args k = .error .syscallMmap := by
  obtain ⟨valid, readable, writable⟩ := accepted_passes accepted
  rw [sys_mmap]
  dsimp only
  rw [if_neg valid, named]
  show (if _ then _ else if _ then _ else _) = _
  rw [if_neg readable, if_neg writable, full]

/-- A refused request is answered with `-1` before anything is touched. -/
theorem sys_mmap_refuses
    (checked : (PGROUNDUP_int args.length).toInt ≤ 0 ∨ args.offset.toInt < 0 ∨
      argfd (k.proc pid) args.fd ≠ none)
    (refused : args.Refused ((argfd (k.proc pid) args.fd).map k.file)) :
    sys_mmap pid args k = .ok (-1, k) := by
  rw [sys_mmap]
  dsimp only
  by_cases early : (PGROUNDUP_int args.length).toInt ≤ 0 ∨ args.offset.toInt < 0
  · rw [if_pos early]
  · rw [if_neg early]
    have opened := checked.resolve_left (not_or.mp early).1 |>.resolve_left (not_or.mp early).2
    obtain ⟨f, named⟩ := Option.ne_none_iff_exists'.mp opened
    rw [named] at refused ⊢
    obtain ⟨file, isFile, denied⟩ :=
      (refused.resolve_left (not_or.mp early).1).resolve_left (not_or.mp early).2
    cases isFile
    show (if _ then _ else if _ then _ else _) = _
    rcases denied with unreadable | unwritable
    · rw [if_pos unreadable]
    · rw [if_pos unwritable]
      exact ite_self _

/-- **A request of `mmap`** that is refused for its length or its offset, or names an open descriptor, is
refused and leaves everything as it was; or it takes one free slot and one reference to the file; or it
finds no free slot, which is a panic. -/
theorem sys_mmap_outcomes
    (referenced : ∀ fd f, (k.proc pid).ofile fd = some f → 1 ≤ (k.file f).ref)
    (checked : (PGROUNDUP_int args.length).toInt ≤ 0 ∨ args.offset.toInt < 0 ∨
      argfd (k.proc pid) args.fd ≠ none) :
    (args.Refused ((argfd (k.proc pid) args.fd).map k.file) ∧ sys_mmap pid args k = .ok (-1, k)) ∨
    ∃ f, argfd (k.proc pid) args.fd = some f ∧ ¬args.Refused (some (k.file f)) ∧
      ((∃ (slot : Fin VMASIZE) (addr : Nat), ((k.proc pid).vma slot).used = false ∧
          sys_mmap pid args k = .ok ((addr : Int), k.mapped pid slot (args.region f addr))) ∨
        ((∀ i, ((k.proc pid).vma i).used = true) ∧ sys_mmap pid args k = .error .syscallMmap)) := by
  by_cases refused : args.Refused ((argfd (k.proc pid) args.fd).map k.file)
  · exact Or.inl ⟨refused, sys_mmap_refuses checked refused⟩
  · have opened : argfd (k.proc pid) args.fd ≠ none :=
      (checked.resolve_left fun short => refused (Or.inl short)).resolve_left
        fun negative => refused (Or.inr (Or.inl negative))
    obtain ⟨f, named⟩ := Option.ne_none_iff_exists'.mp opened
    rw [named, Option.map_some] at refused
    refine Or.inr ⟨f, named, refused, ?_⟩
    have counted : 1 ≤ (k.file f).ref := by
      rw [argfd] at named
      split_ifs at named
      exact referenced _ f named
    rcases placed : VmaTable.place (k.proc pid).vma with ⟨_ | slot, assigned⟩
    · exact Or.inr ⟨VmaTable.place_none placed, sys_mmap_full named refused placed⟩
    · obtain ⟨addr, run⟩ := sys_mmap_free named refused counted placed
      exact Or.inl ⟨slot, addr, VmaTable.place_free placed, run⟩

/-- A page of descriptor 0 of a process that has no region. -/
theorem sys_mmap_outcomes_small : ∃ (slot : Fin VMASIZE) (addr : Nat),
    sys_mmap firstPid ⟨1, 3, 2, 0, 0, none⟩ (smallKernel .inode (some ())) = .ok ((addr : Int),
      (smallKernel .inode (some ())).mapped firstPid slot
        (MmapArgs.region ⟨1, 3, 2, 0, 0, none⟩ firstFile addr)) := by
  have referenced : ∀ fd f, ((smallKernel .inode (some ())).proc firstPid).ofile fd = some f →
      1 ≤ ((smallKernel .inode (some ())).file f).ref := by decide +kernel
  have free : ((((smallKernel .inode (some ())).proc firstPid).vma ⟨0, by decide⟩).used) = false := rfl
  have accepted : ¬MmapArgs.Refused ⟨1, 3, 2, 0, 0, none⟩
      (some (⟨.inode, 1, true, true, some ()⟩ : File Unit)) := by
    rintro (length | offset | ⟨file, isFile, denied⟩)
    · exact absurd length (by decide)
    · exact absurd offset (by decide)
    · cases isFile
      exact absurd denied (by decide)
  have opened : argfd ((smallKernel .inode (some ())).proc firstPid) 0 ≠ none := by decide +kernel
  rcases @sys_mmap_outcomes _ _ _ firstPid ⟨1, 3, 2, 0, 0, none⟩ referenced (Or.inr (Or.inr opened)) with
    ⟨refused, -⟩ | ⟨f, named, -, ⟨slot, addr, -, run⟩ | ⟨full, -⟩⟩
  · exact absurd refused accepted
  · cases named
    exact ⟨slot, addr, run⟩
  · rw [full] at free
    cases free

/-- **A full table is a panic**: sixteen pages are mapped, and one more is asked for. -/
theorem sys_mmap_panics : ∃ k, Run (Kernel.Step oneFile) (smallKernel .inode (some ()))
      (List.replicate 16 (mapPagesOf 4096 3 2)) k ∧
    argfd (k.proc firstPid) 0 ≠ none ∧
    sys_mmap firstPid ⟨4096, 3, 2, 0, 0, none⟩ k = .error .syscallMmap := by
  have replayed : (replay oneFile (fun _ _ => true) (List.replicate 16 (mapPagesOf 4096 3 2))
      (smallKernel .inode (some ()))).any fun k => (argfd (k.proc firstPid) 0).isSome &&
        errorOf (sys_mmap firstPid ⟨4096, 3, 2, 0, 0, none⟩ k) == some .syscallMmap := by
    decide +kernel
  rw [Option.any_eq_true] at replayed
  obtain ⟨k, reached, stops⟩ := replayed
  rw [Bool.and_eq_true] at stops
  refine ⟨k, (run_of_replay (fun _ _ => True) (fun _ _ _ => trivial) reached).mono
    fun _ _ _ => And.left, ?_, errorOf_eq_some.mp (eq_of_beq stops.2)⟩
  exact Option.ne_none_iff_isSome.mpr stops.1

end Csc3150.Mmap
