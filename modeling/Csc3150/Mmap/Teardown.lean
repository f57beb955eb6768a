/-
**`exit` against `munmap` of everything.**

`exit` unmaps the regions of its process by itself, without `sys_munmap`, and does not write back
what was stored to them. Where a process calls `munmap` on each of its regions first, the calls do
the work of `exit` on the regions in advance, so that

* the two ways leave the same processes, the same files and the same free pages
  (`exit_equals_munmaps`);
* `exit` only closes files, and what the calls wrote back are resident pages of shared, writable
  regions.

The second way closes regions before descriptors, the first one after them; `Commutes` is used for
the order, and `Kernel.erase` for leaving the file system out.
-/

import Csc3150.Library.Rearrange
import Csc3150.Mmap.Munmap

namespace Csc3150.Mmap

open Outcome Program Transition

variable {Ip σ : Type} {layer : FileLayer Ip σ} {k k' : Kernel Ip σ} {pid : Pid}

/-! ### Unmapping each region -/

/-- `munmap` of the region in a slot, if it is used. -/
def munmapSlot (layer : FileLayer Ip σ) (pid : Pid) (i : Fin VMASIZE) : KProg Ip σ Int := fun k =>
  let v := (k.proc pid).vma i
  if v.used then sys_munmap layer pid v.addr v.length k else .ok (0, k)

/-- `munmap` of the region in each slot; the results of the calls. -/
def munmapAll (layer : FileLayer Ip σ) (pid : Pid) : List (Fin VMASIZE) → KProg Ip σ (List Int)
  | [] => pure []
  | i :: rest => do
    let r ← munmapSlot layer pid i
    let results ← munmapAll layer pid rest
    return r :: results

/-! ### Closing a file -/

/-- A file after a reference to it is dropped. -/
def File.dropped (file : File Ip) : File Ip :=
  if 0 < file.ref - 1 then { file with ref := file.ref - 1 } else { file with ref := 0, type := .none }

/-- A reference to the file can be dropped without a panic. -/
def File.Closable (file : File Ip) : Prop :=
  1 ≤ file.ref ∧ (file.ref = 1 → file.type = .inode ∨ file.type = .device → file.ip ≠ none)

/-- What dropping a reference does to the file system. -/
def FileLayer.close (layer : FileLayer Ip σ) (f : Fp) (file : File Ip) (fs : σ) : σ :=
  if 0 < file.ref - 1 then fs
  else
    match file.type, file.ip with
    | .pipe, _ => layer.pipeclose fs f file.writable
    | .none, _ => fs
    | _, some ip => layer.iput fs ip
    | _, none => fs

def Kernel.close (layer : FileLayer Ip σ) (k : Kernel Ip σ) (f : Fp) : Kernel Ip σ :=
  { k.setFile f (k.file f).dropped with fs := layer.close f (k.file f) k.fs }

theorem fileclose_iff {f : Fp} : fileclose layer f k = .ok ((), k') ↔
    (k.file f).Closable ∧ k' = k.close layer f := by
  unfold fileclose Kernel.close File.Closable File.dropped FileLayer.close
  dsimp only
  by_cases unreferenced : (k.file f).ref < 1
  · rw [if_pos unreferenced]
    exact ⟨nofun, fun both => absurd both.1.1 (by omega)⟩
  rw [if_neg unreferenced]
  by_cases shared : 0 < (k.file f).ref - 1
  · simp only [if_pos shared, Except.ok.injEq, Prod.mk.injEq, true_and, eq_comm (a := k')]
    exact (and_iff_right ⟨by omega, fun last => by omega⟩).symm
  simp only [if_neg shared]
  have last : (k.file f).ref = 1 := by omega
  by_cases wild : ((k.file f).type = .inode ∨ (k.file f).type = .device) ∧ (k.file f).ip = none
  · refine iff_of_false (fun run => ?_) fun both => both.1.2 last wild.1 wild.2
    obtain ⟨type | type, ip⟩ := wild <;>
    · rw [type, ip] at run
      cases run
  · rw [and_iff_right ⟨by omega, fun _ type ip => wild ⟨type, ip⟩⟩, eq_comm (a := k')]
    cases type : (k.file f).type <;> cases ip : (k.file f).ip <;>
      simp only [type, ip, reduceCtorEq, or_true, true_or, and_self, not_true_eq_false] at wild <;>
      exact ⟨fun run => by cases run; rfl, fun same => by cases same; rfl⟩

/-! ### Closings in another order -/

/-- The order in which files are closed makes no difference to the file system. -/
structure FileLayer.Orderly (layer : FileLayer Ip σ) : Prop where
  iputs : ∀ fs ip ip', layer.iput (layer.iput fs ip) ip' = layer.iput (layer.iput fs ip') ip
  pipes : ∀ fs f w f' w', layer.pipeclose (layer.pipeclose fs f w) f' w' =
    layer.pipeclose (layer.pipeclose fs f' w') f w
  mixed : ∀ fs ip f w, layer.iput (layer.pipeclose fs f w) ip = layer.pipeclose (layer.iput fs ip) f w

theorem FileLayer.close_cases (layer : FileLayer Ip σ) (f : Fp) (file : File Ip) :
    layer.close f file = id ∨ (∃ ip, layer.close f file = fun fs => layer.iput fs ip) ∨
      layer.close f file = fun fs => layer.pipeclose fs f file.writable := by
  by_cases last : 0 < file.ref - 1
  · exact Or.inl (funext fun fs => if_pos last)
  · have close : layer.close f file = fun fs => match file.type, file.ip with
        | .pipe, _ => layer.pipeclose fs f file.writable
        | .none, _ => fs
        | _, some ip => layer.iput fs ip
        | _, none => fs := funext fun fs => if_neg last
    rw [close]
    cases file.type with
    | none => exact Or.inl rfl
    | pipe => exact Or.inr (Or.inr rfl)
    | inode =>
      cases file.ip with
      | none => exact Or.inl rfl
      | some ip => exact Or.inr (Or.inl ⟨ip, rfl⟩)
    | device =>
      cases file.ip with
      | none => exact Or.inl rfl
      | some ip => exact Or.inr (Or.inl ⟨ip, rfl⟩)

theorem FileLayer.Orderly.close (orderly : layer.Orderly) (f g : Fp) (file file' : File Ip) (fs : σ) :
    layer.close g file' (layer.close f file fs) = layer.close f file (layer.close g file' fs) := by
  rcases layer.close_cases f file with first | ⟨ip, first⟩ | first <;>
  rcases layer.close_cases g file' with second | ⟨ip', second⟩ | second <;>
  simp only [first, second, id, orderly.mixed]
  · exact orderly.iputs fs ip ip'
  · exact orderly.pipes fs f _ g _

namespace Kernel

@[simp] theorem close_proc (k : Kernel Ip σ) (f : Fp) : (k.close layer f).proc = k.proc := rfl
@[simp] theorem close_file (k : Kernel Ip σ) (f : Fp) :
    (k.close layer f).file = Function.update k.file f (k.file f).dropped := rfl

theorem close_setProc (k : Kernel Ip σ) (p : Proc Ip) (f : Fp) :
    (k.setProc pid p).close layer f = (k.close layer f).setProc pid p := rfl

theorem setProc_setProc (k : Kernel Ip σ) (p p' : Proc Ip) :
    (k.setProc pid p).setProc pid p' = k.setProc pid p' := by
  unfold setProc
  rw [Function.update_idem]

theorem close_close (orderly : layer.Orderly) (k : Kernel Ip σ) {f g : Fp} (different : f ≠ g) :
    (k.close layer f).close layer g = (k.close layer g).close layer f := by
  unfold close setFile
  simp only [Function.update_of_ne different, Function.update_of_ne different.symm]
  rw [Function.update_comm different, orderly.close f g]

end Kernel

/-- Drop the file of a pointer of a process, and change the process. -/
def release (layer : FileLayer Ip σ) (pid : Pid) (pointer : Proc Ip → Option Fp)
    (change : Proc Ip → Proc Ip) : KProg Ip σ Unit := fun k =>
  match pointer (k.proc pid) with
  | none => .ok ((), k)
  | some f => do
    let ((), k) ← fileclose layer f k
    modifyProc pid change k

section Release

variable {pointer pointer' : Proc Ip → Option Fp} {change change' : Proc Ip → Proc Ip}

theorem release_none (absent : pointer (k.proc pid) = none) :
    release layer pid pointer change k = .ok ((), k') ↔ k' = k := by
  rw [release, absent, Except.ok.injEq, Prod.mk.injEq, eq_self, true_and, eq_comm]

theorem release_some {f : Fp} (present : pointer (k.proc pid) = some f) :
    release layer pid pointer change k = .ok ((), k') ↔ (k.file f).Closable ∧
      k' = (k.close layer f).setProc pid (change (k.proc pid)) := by
  rw [release, present]
  dsimp only
  rw [bind_eq_ok]
  constructor
  · rintro ⟨⟨⟨⟩, k₁⟩, closed, rest⟩
    obtain ⟨closable, rfl⟩ := fileclose_iff.mp closed
    exact ⟨closable, modifyProc_ends.mp rest⟩
  · rintro ⟨closable, rfl⟩
    exact ⟨((), k.close layer f), fileclose_iff.mpr ⟨closable, rfl⟩, rfl⟩

/-- Two releases that do not change each other's pointer, in the other order. -/
theorem release_swap (orderly : layer.Orderly) (apart : ∀ p, pointer (change' p) = pointer p)
    (apart' : ∀ p, pointer' (change p) = pointer' p)
    (commute : ∀ p, change' (change p) = change (change' p))
    (run : (do release layer pid pointer change; release layer pid pointer' change') k =
      .ok ((), k')) :
    (do release layer pid pointer' change'; release layer pid pointer change) k = .ok ((), k') := by
  obtain ⟨middle, first, second⟩ := sequence_ends.mp run
  rw [sequence_ends]
  cases present : pointer (k.proc pid) with
  | none =>
    obtain rfl := (release_none present).mp first
    refine ⟨k', second, (release_none ?_).mpr rfl⟩
    cases present' : pointer' (middle.proc pid) with
    | none => rwa [(release_none present').mp second]
    | some g =>
      rw [((release_some present').mp second).2, Kernel.setProc_proc, Function.update_self, apart]
      exact present
  | some f =>
    obtain ⟨closable, rfl⟩ := (release_some present).mp first
    have same : ((k.close layer f).setProc pid (change (k.proc pid))).proc pid =
        change (k.proc pid) := Function.update_self _ _ _
    cases present' : pointer' (k.proc pid) with
    | none =>
      obtain rfl := (release_none ((congrArg pointer' same).trans
        ((apart' _).trans present'))).mp second
      exact ⟨k, (release_none present').mpr rfl, first⟩
    | some g =>
      obtain ⟨closable', rfl⟩ := (release_some ((congrArg pointer' same).trans
        ((apart' _).trans present'))).mp second
      have same' : ((k.close layer g).setProc pid (change' (k.proc pid))).proc pid =
          change' (k.proc pid) := Function.update_self _ _ _
      have finish : ∀ k₁ k₂ : Kernel Ip σ, k₁ = k₂ →
          k₁.setProc pid (change' (change (k.proc pid))) =
            k₂.setProc pid (change (change' (k.proc pid))) :=
        fun _ _ states => congrArg₂ (Kernel.setProc · pid ·) states (commute _)
      refine ⟨_, (release_some present').mpr ⟨?_, rfl⟩, (release_some
        ((congrArg pointer same').trans ((apart _).trans present))).mpr ⟨?_, ?_⟩⟩
      · by_cases named : f = g
        · exact named ▸ closable
        · rwa [Kernel.setProc_file, Kernel.close_file, Function.update_of_ne (Ne.symm named)]
            at closable'
      · by_cases named : f = g
        · subst named
          exact closable'
        · rwa [Kernel.setProc_file, Kernel.close_file, Function.update_of_ne named]
      · rw [same, same', Kernel.close_setProc, Kernel.close_setProc, Kernel.setProc_setProc,
          Kernel.setProc_setProc]
        refine finish _ _ ?_
        by_cases named : f = g
        · rw [named]
        · exact Kernel.close_close orderly k named

theorem release_commutes (orderly : layer.Orderly) (apart : ∀ p, pointer (change' p) = pointer p)
    (apart' : ∀ p, pointer' (change p) = pointer' p)
    (commute : ∀ p, change' (change p) = change (change' p)) :
    Commutes (release layer pid pointer change) (release layer pid pointer' change') :=
  fun _ _ => ⟨release_swap orderly apart apart' commute,
    release_swap orderly apart' apart fun p => (commute p).symm⟩

/-- A release keeps away from the address space of its process. -/
theorem release_setSpace (s : Space) (apart : ∀ p table, pointer (p.setTable table) = pointer p)
    (commute : ∀ p table, change (p.setTable table) = (change p).setTable table) :
    release layer pid pointer change (k.setSpace pid s) = .ok ((), k') ↔
      ∃ middle, release layer pid pointer change k = .ok ((), middle) ∧
        k' = middle.setSpace pid s := by
  have same : (k.setSpace pid s).proc pid = (k.proc pid).setTable s.table :=
    Function.update_self _ _ _
  cases present : pointer (k.proc pid) with
  | none =>
    rw [release_none ((congrArg pointer same).trans ((apart _ _).trans present))]
    constructor
    · exact fun kept => ⟨k, (release_none present).mpr rfl, kept⟩
    · rintro ⟨middle, run, kept⟩
      rw [kept, (release_none present).mp run]
  | some f =>
    have states : ((k.setSpace pid s).close layer f).setProc pid
        (change ((k.setSpace pid s).proc pid)) =
        ((k.close layer f).setProc pid (change (k.proc pid))).setSpace pid s := by
      rw [same, commute]
      simp only [Kernel.setSpace, Kernel.setProc, Kernel.close, Kernel.setFile, Function.update_idem,
        Function.update_self]
    rw [release_some ((congrArg pointer same).trans ((apart _ _).trans present)), states]
    constructor
    · rintro ⟨closable, kept⟩
      exact ⟨_, (release_some present).mpr ⟨closable, rfl⟩, kept⟩
    · rintro ⟨middle, run, kept⟩
      obtain ⟨closable, rfl⟩ := (release_some present).mp run
      exact ⟨closable, kept⟩

theorem release_space (keeps : ∀ p, (change p).pagetable = p.pagetable)
    (run : release layer pid pointer change k = .ok ((), k')) : k'.space pid = k.space pid := by
  cases present : pointer (k.proc pid) with
  | none => rw [(release_none present).mp run]
  | some f =>
    rw [((release_some present).mp run).2]
    unfold Kernel.space
    rw [Kernel.setProc_proc, Function.update_self, keeps]
    rfl

theorem release_inSpace_commutes {x : VmProg Unit}
    (apart : ∀ p table, pointer (p.setTable table) = pointer p)
    (commute : ∀ p table, change (p.setTable table) = (change p).setTable table)
    (keeps : ∀ p, (change p).pagetable = p.pagetable) :
    Commutes (release layer pid pointer change) (inSpace pid x) := by
  intro k k'
  rw [sequence_ends, sequence_ends]
  constructor
  · rintro ⟨middle, run, inside⟩
    obtain ⟨s, ends, rfl⟩ := inSpace_ends.mp inside
    rw [release_space keeps run] at ends
    exact ⟨_, inSpace_ends.mpr ⟨s, ends, rfl⟩,
      (release_setSpace s apart commute).mpr ⟨middle, run, rfl⟩⟩
  · rintro ⟨middle, inside, run⟩
    obtain ⟨s, ends, rfl⟩ := inSpace_ends.mp inside
    obtain ⟨last, released, rfl⟩ := (release_setSpace s apart commute).mp run
    refine ⟨last, released, inSpace_ends.mpr ⟨s, ?_, rfl⟩⟩
    rwa [release_space keeps released]

end Release

/-! ### Unmapping in another order -/

theorem inSpace_commutes {x y : VmProg Unit} (commutes : Commutes x y) :
    Commutes (inSpace pid x : KProg Ip σ Unit) (inSpace pid y) := by
  have forward : ∀ {x y : VmProg Unit}, Commutes x y → ∀ k k' : Kernel Ip σ,
      (do inSpace pid x; inSpace pid y) k = .ok ((), k') →
        (do inSpace pid y; inSpace pid x) k = .ok ((), k') := by
    intro x y commutes k k' run
    obtain ⟨middle, first, second⟩ := sequence_ends.mp run
    obtain ⟨s, endsX, rfl⟩ := inSpace_ends.mp first
    obtain ⟨s', endsY, rfl⟩ := inSpace_ends.mp second
    have inside : ∀ s : Space, (k.setSpace pid s).space pid = s := fun s => by
      unfold Kernel.space
      rw [Kernel.setSpace_proc, Function.update_self]
      rfl
    have twice : ∀ s s' : Space, (k.setSpace pid s).setSpace pid s' = k.setSpace pid s' := by
      intro s s'
      simp only [Kernel.setSpace, Kernel.setProc, Function.update_self, Function.update_idem,
        Proc.setTable_setTable]
    rw [inside] at endsY
    obtain ⟨s'', endsY', endsX'⟩ := sequence_ends.mp
      ((commutes _ _).mp (sequence_ends.mpr ⟨s, endsX, endsY⟩))
    refine sequence_ends.mpr ⟨_, inSpace_ends.mpr ⟨s'', endsY', rfl⟩,
      inSpace_ends.mpr ⟨s', ?_, ?_⟩⟩
    · rwa [inside]
    · rw [twice, twice]
  exact fun k k' => ⟨forward commutes k k', forward commutes.symm k k'⟩

theorem Space.unmapped_unmapped {do_free do_free' : Bool} {vpn vpn' : Nat} (different : vpn ≠ vpn')
    (one : do_free = false ∨ do_free' = false) (s : Space) :
    (s.unmapped do_free vpn).unmapped do_free' vpn' =
      (s.unmapped do_free' vpn').unmapped do_free vpn := by
  have clear : (s.table.clear vpn).clear vpn' = (s.table.clear vpn').clear vpn := by
    unfold PageTable.clear
    congr 1
    exact Function.update_comm different _ _ _
  unfold Space.unmapped
  cases here : s.table.leaf vpn with
  | none =>
    cases there : s.table.leaf vpn' with
    | none => simp only [here]
    | some pte' =>
      have kept : (s.table.clear vpn').leaf vpn = none :=
        (Function.update_of_ne different _ _).trans here
      simp only [kept]
  | some pte =>
    have there' : (s.table.clear vpn).leaf vpn' = s.table.leaf vpn' :=
      Function.update_of_ne different.symm _ _
    cases there : s.table.leaf vpn' with
    | none =>
      rw [there] at there'
      simp only [here, there']
    | some pte' =>
      have kept : (s.table.clear vpn').leaf vpn = some pte :=
        (Function.update_of_ne different _ _).trans here
      rw [there] at there'
      simp only [there', kept, clear]
      rcases one with rfl | rfl <;> simp only [Bool.false_eq_true, if_false]

theorem unmapPage_commutes {do_free do_free' : Bool} {vpn vpn' : Nat} (different : vpn ≠ vpn')
    (one : do_free = false ∨ do_free' = false) :
    Commutes (unmapPage do_free vpn) (unmapPage do_free' vpn') := by
  have moved : ∀ {f g : Bool} {a b : Nat} {s middle s' : Space}, a ≠ b → f = false ∨ g = false →
      unmapPage f a s = .ok ((), middle) → unmapPage g b middle = .ok ((), s') →
      ∃ other, unmapPage g b s = .ok ((), other) ∧ unmapPage f a other = .ok ((), s') := by
    intro f g a b s middle s' apart one first second
    obtain ⟨here, rfl⟩ := unmapPage_iff.mp first
    obtain ⟨there, rfl⟩ := unmapPage_iff.mp second
    rw [s.unmapped_pages] at there
    refine ⟨s.unmapped g b, unmapPage_iff.mpr ⟨there, rfl⟩, unmapPage_iff.mpr ⟨?_, ?_⟩⟩
    · rw [s.unmapped_pages]
      exact here
    · exact Space.unmapped_unmapped apart one s
  intro s s'
  rw [sequence_ends, sequence_ends]
  constructor
  · rintro ⟨middle, first, second⟩
    exact moved different one first second
  · rintro ⟨middle, first, second⟩
    exact moved different.symm one.symm first second

/-! ### The regions at an exit -/

/-- What `exit` does to the region in slot `i`. -/
def exitRegion (layer : FileLayer Ip σ) (pid : Pid) (v : Vma) (i : Fin VMASIZE) :
    KProg Ip σ Unit :=
  if v.used then do
    inSpace pid (uvmunmap v.addr (word ((PGROUNDUP_int v.length).toInt.tdiv PGSIZE)) (!v.isShared))
    closeVma layer pid i
  else pure ()

theorem exitVma_eq (i : Fin VMASIZE) :
    exitVma layer pid i k = exitRegion layer pid ((k.proc pid).vma i) i k := by
  unfold exitVma exitRegion
  dsimp only
  cases ((k.proc pid).vma i).used <;> rfl

/-- The pages of a region, as the loops of `exit` and `sys_munmap` go through them. -/
def Vma.vpns (v : Vma) : List Nat := pagesBetween v.addr (v.addr + v.size)

theorem Vma.Placed.unmap {v : Vma} {slot : Nat} (placed : v.Placed slot) (do_free : Bool) :
    uvmunmap v.addr (word ((PGROUNDUP_int v.length).toInt.tdiv PGSIZE)) do_free =
      v.vpns.forM (unmapPage do_free) := by
  have top := placed.top
  have pages := placed.pages
  have aligned := placed.aligned
  have stop : word (v.addr + (word ((PGROUNDUP_int v.length).toInt.tdiv PGSIZE) : Nat) * PGSIZE) =
      v.addr + v.size := by
    rw [placed.round_eq, Int.tdiv_eq_ediv_of_nonneg (Int.natCast_nonneg _)]
    unfold TRAPFRAME TRAMPOLINE MAXVA PGSIZE at *
    unfold word
    omega
  rw [uvmunmap, if_neg (not_not.mpr aligned), stop]
  rfl

theorem exitFile_release (i : Fin NOFILE) : exitFile layer pid i = release layer pid
    (fun p => p.ofile i) fun p => p.setFiles (Function.update p.ofile i none) := rfl

theorem closeVma_release (i : Fin VMASIZE) : closeVma layer pid i = release layer pid
    (fun p => some (p.vma i).file) fun p => p.setVma (Function.update p.vma i (p.vma i).free) := rfl

theorem exitFile_exitRegion (orderly : layer.Orderly) (fd : Fin NOFILE) (v : Vma) (i : Fin VMASIZE) :
    Commutes (exitFile layer pid fd) (exitRegion layer pid v i) := by
  unfold exitRegion
  cases v.used with
  | false => exact Commutes.pure _
  | true =>
    rw [exitFile_release, closeVma_release]
    refine Commutes.bind (release_inSpace_commutes ?_ ?_ ?_) (release_commutes orderly ?_ ?_ ?_) <;>
      exact fun _ => by first | rfl | exact fun _ => rfl

theorem closeVma_commutes (orderly : layer.Orderly) {i j : Fin VMASIZE} (different : i ≠ j) :
    Commutes (closeVma layer pid i) (closeVma layer pid j) := by
  rw [closeVma_release, closeVma_release]
  refine release_commutes orderly (fun p => ?_) (fun p => ?_) fun p => ?_
  · exact congrArg (fun v : Vma => some v.file) (Function.update_of_ne different _ _)
  · exact congrArg (fun v : Vma => some v.file) (Function.update_of_ne different.symm _ _)
  · simp only [Proc.setVma_vma, Proc.setVma_setVma, Function.update_of_ne different,
      Function.update_of_ne different.symm]
    rw [Function.update_comm different]

theorem Vma.Placed.vpns_disjoint {v w : Vma} {slot slot' : Nat} (placed : v.Placed slot)
    (placed' : w.Placed slot') (apart : Disjoint v.range w.range) {vpn vpn' : Nat}
    (here : vpn ∈ v.vpns) (there : vpn' ∈ w.vpns) : vpn ≠ vpn' := by
  rintro rfl
  have aligned := placed.aligned
  have aligned' := placed'.aligned
  have pages := placed.pages
  have pages' := placed'.pages
  have bounds := mem_pagesBetween.mp here
  have bounds' := mem_pagesBetween.mp there
  refine Set.disjoint_left.mp apart (⟨?_, ?_⟩ : vpn * PGSIZE ∈ v.range) ⟨?_, ?_⟩ <;>
  · unfold PGSIZE at *
    omega

/-- Two regions with different pages, of which only one gives its pages back. -/
theorem exitRegion_commutes (orderly : layer.Orderly) {v w : Vma} {i j : Fin VMASIZE}
    (different : i ≠ j) (placed : v.used = true → v.Placed i) (placed' : w.used = true → w.Placed j)
    (apart : v.used = true → w.used = true → Disjoint v.range w.range)
    (one : v.isShared = true ∨ w.isShared = true) :
    Commutes (exitRegion layer pid v i) (exitRegion layer pid w j) := by
  unfold exitRegion
  cases usedV : v.used with
  | false => exact (Commutes.pure _).symm
  | true =>
    cases usedW : w.used with
    | false => exact Commutes.pure _
    | true =>
      have spaces : ∀ (i : Fin VMASIZE) (x : VmProg Unit),
          Commutes (closeVma layer pid i) (inSpace pid x) := by
        intro i x
        rw [closeVma_release]
        exact release_inSpace_commutes (fun _ _ => rfl) (fun _ _ => rfl) fun _ => rfl
      have pages : Commutes (v.vpns.forM (unmapPage !v.isShared))
          (w.vpns.forM (unmapPage !w.isShared)) := by
        refine Commutes.forM fun vpn' there => (Commutes.forM fun vpn here => ?_).symm
        refine (unmapPage_commutes ?_ ?_).symm
        · exact (placed usedV).vpns_disjoint (placed' usedW) (apart usedV usedW) here there
        · exact one.imp (fun shared => by rw [shared]; rfl) fun shared => by rw [shared]; rfl
      simp only [if_true, (placed usedV).unmap, (placed' usedW).unmap]
      refine Commutes.bind ?_ ?_
      · exact (Commutes.bind (inSpace_commutes pages).symm (spaces i _).symm).symm
      · exact (Commutes.bind (spaces j _) (closeVma_commutes orderly different).symm).symm

/-! ### One call -/

theorem Vma.Placed.munmapRange_eq {v : Vma} {slot : Nat} (placed : v.Placed slot) :
    munmapRange v.addr v.length = (v.addr, v.addr + v.size) := by
  have aligned := placed.aligned
  have pages := placed.pages
  have top := placed.top
  have wide := placed.length_eq
  unfold munmapRange
  rw [wide]
  refine Prod.ext ?_ ?_ <;> dsimp only
  · unfold PGROUNDDOWN PGSIZE at *
    omega
  · unfold PGROUNDUP PGROUNDDOWN word
    unfold TRAPFRAME TRAMPOLINE MAXVA PGSIZE at *
    omega

theorem Vma.Placed.unmap_range {v : Vma} {slot : Nat} (placed : v.Placed slot) (do_free : Bool) :
    uvmunmap v.addr (word (((v.addr + v.size : Nat) : Int) - v.addr) / PGSIZE) do_free =
      v.vpns.forM (unmapPage do_free) := by
  have aligned := placed.aligned
  have pages := placed.pages
  have top := placed.top
  have stop : word (v.addr + (word (((v.addr + v.size : Nat) : Int) - v.addr) / PGSIZE : Nat) *
      PGSIZE) = v.addr + v.size := by
    unfold word
    unfold TRAPFRAME TRAMPOLINE MAXVA PGSIZE at *
    omega
  rw [uvmunmap, if_neg (not_not.mpr aligned), stop]
  rfl

/-- A write-back that writes no page leaves the file system alone. -/
theorem writeback_silent {v : Vma} {ip : Ip} {vpns : List Nat} {accepted : Bool}
    (run : writeback layer pid v ip vpns k = .ok (accepted, k'))
    (same : k'.written = k.written) : k'.fs = k.fs := by
  have longer : ∀ {vpns : List Nat} {k : Kernel Ip σ},
      writeback layer pid v ip vpns k = .ok (accepted, k') →
        k.written.length ≤ k'.written.length := by
    intro vpns k run
    obtain ⟨fs, written, rfl, -⟩ := writeback_ends run
    rw [List.length_append]
    omega
  induction vpns with
  | nil =>
    cases run
    rfl
  | cons vpn rest ih =>
    rw [writeback] at run
    dsimp only at run
    split at run
    · exact ih run
    · split at run
      · cases run
        exact absurd (congrArg List.length same) (by simp)
      · have bound := longer run
        rw [same, List.length_cons] at bound
        omega

/-- A page that was mapped by a shared, writable region. -/
def Kernel.Dirty (k : Kernel Ip σ) (pid : Pid) (vpn : Nat) : Prop :=
  ∃ i, ((k.proc pid).vma i).used = true ∧ ((k.proc pid).vma i).isShared = true ∧
    ((k.proc pid).vma i).isWritable = true ∧ vpn ∈ ((k.proc pid).vma i).vpns ∧
    (k.proc pid).pagetable.leaf vpn ≠ none

theorem PageTable.leaf_of_walkaddr {table : PageTable} {vpn : Nat}
    (present : table.walkaddr (vpn * PGSIZE) ≠ none) : table.leaf vpn ≠ none := by
  intro absent
  refine present ?_
  unfold PageTable.walkaddr
  rw [Nat.mul_div_cancel vpn PGSIZE_pos, absent]
  exact ite_self _

/-- `munmap` of a whole region writes pages back, and is refused there or does what `exit` does. -/
theorem sys_munmap_whole {i : Fin VMASIZE} {r : Int} (used : ((k.proc pid).vma i).used = true)
    (placed : ((k.proc pid).vma i).Placed i)
    (found : VmaTable.find (k.proc pid).vma ((k.proc pid).vma i).addr = some i)
    (run : sys_munmap layer pid ((k.proc pid).vma i).addr ((k.proc pid).vma i).length k =
      .ok (r, k')) :
    ∃ fs lost, (∀ page ∈ lost, k.Dirty pid page.vpn) ∧ (lost = [] → fs = k.fs) ∧
      (r = -1 ∧ ((k.proc pid).vma i).isShared = true ∧
          k' = { k with fs := fs, written := lost ++ k.written } ∨
        r = 0 ∧ exitVma layer pid i { k with fs := fs, written := lost ++ k.written } =
          .ok ((), k')) := by
  have finish : ∀ k₁ : Kernel Ip σ, k₁.proc = k.proc →
      (do
        inSpace pid (uvmunmap ((k.proc pid).vma i).addr
          (word ((((k.proc pid).vma i).addr + ((k.proc pid).vma i).size : Nat) -
            ((k.proc pid).vma i).addr) / PGSIZE) (!((k.proc pid).vma i).isShared))
        if ((k.proc pid).vma i).addr = ((k.proc pid).vma i).addr ∧
            ((k.proc pid).vma i).addr + ((k.proc pid).vma i).size = ((k.proc pid).vma i).limit then
          closeVma layer pid i
        return 0 : KProg Ip σ Int) k₁ = .ok (r, k') →
      r = 0 ∧ exitVma layer pid i k₁ = .ok ((), k') := by
    intro k₁ same run
    rw [placed.unmap_range, if_pos ⟨rfl, placed.limit_eq.symm⟩] at run
    obtain ⟨⟨⟩, k₂, unmapped, rest⟩ := bind_ends.mp run
    obtain ⟨⟨⟩, k₃, closed, rest⟩ := bind_ends.mp rest
    cases rest
    refine ⟨rfl, ?_⟩
    rw [exitVma_eq, same, exitRegion, if_pos used, placed.unmap]
    exact sequence_ends.mpr ⟨k₂, unmapped, closed⟩
  rw [sys_munmap, found, placed.munmapRange_eq] at run
  dsimp only at run
  split at run
  · next writes =>
    rw [Bool.and_eq_true] at writes
    obtain ⟨ip, -, run⟩ := bind_eq_ok.mp run
    obtain ⟨⟨accepted, k₁⟩, wrote, rest⟩ := bind_eq_ok.mp run
    have silent := writeback_silent wrote
    obtain ⟨fs, lost, rfl, resident⟩ := writeback_ends wrote
    refine ⟨fs, lost, fun page member => ?_, fun none => silent ?_, ?_⟩
    · exact ⟨i, used, writes.1, writes.2, (resident page member).1,
        PageTable.leaf_of_walkaddr (resident page member).2⟩
    · rw [none]
      rfl
    · dsimp only at rest
      split at rest
      · exact Or.inr (finish _ rfl rest)
      · cases rest
        exact Or.inl ⟨rfl, writes.1, rfl⟩
  · have nothing : ∀ page ∈ ([] : List (Writeback Ip)), k.Dirty pid page.vpn := by
      intro page member
      cases member
    exact ⟨k.fs, [], nothing, fun _ => rfl, Or.inr (finish k rfl run)⟩

/-! ### Leaving the file system out -/

/-- A kernel without its file system. -/
def Kernel.erase (k : Kernel Ip σ) : Kernel Ip Unit where
  proc := k.proc
  file := k.file
  ram := k.ram
  fs := ()
  written := []

/-- A file system of which nothing is known. -/
def silentLayer : FileLayer Ip Unit where
  ref _ _ := 1
  readi _ _ _ _ := (0, [])
  writei _ _ _ _ := (0, ())
  idup _ _ := ()
  iput _ _ := ()
  pipeclose _ _ _ := ()

theorem silentLayer_orderly : (silentLayer : FileLayer Ip Unit).Orderly :=
  ⟨fun _ _ _ => rfl, fun _ _ _ _ _ => rfl, fun _ _ _ _ => rfl⟩

section Erase

variable {α : Type}

theorem inSpace_follows (x : VmProg α) :
    Follows Kernel.erase (inSpace pid x : KProg Ip σ α) (inSpace pid x) := by
  intro k
  have same : k.erase.space pid = k.space pid := rfl
  unfold inSpace
  rw [same]
  cases x (k.space pid) with
  | error _ => rfl
  | ok result => rfl

theorem release_follows (pointer : Proc Ip → Option Fp) (change : Proc Ip → Proc Ip) :
    Follows Kernel.erase (release layer pid pointer change)
      (release silentLayer pid pointer change) := by
  intro k
  unfold release
  have same : k.erase.proc = k.proc := rfl
  rw [same]
  cases pointer (k.proc pid) with
  | none => rfl
  | some f =>
    have close : fileclose silentLayer f k.erase =
        (fileclose layer f k).map fun result => (result.1, result.2.erase) := by
      unfold fileclose
      have files : k.erase.file = k.file := rfl
      simp only [files]
      split
      · rfl
      · split
        · rfl
        · cases (k.file f).type <;> cases (k.file f).ip <;> rfl
    dsimp only
    rw [close]
    cases fileclose layer f k with
    | error _ => rfl
    | ok result => rfl

theorem exitRegion_follows (v : Vma) (i : Fin VMASIZE) :
    Follows Kernel.erase (exitRegion layer pid v i) (exitRegion silentLayer pid v i) := by
  unfold exitRegion
  cases v.used with
  | false => exact Follows.pure ()
  | true =>
    refine Follows.bind (inSpace_follows _) fun _ => ?_
    rw [closeVma_release, closeVma_release]
    exact release_follows _ _

theorem exitVma_follows (i : Fin VMASIZE) :
    Follows Kernel.erase (exitVma layer pid i) (exitVma silentLayer pid i) := by
  intro k
  rw [exitVma_eq, exitVma_eq]
  exact exitRegion_follows _ i k

/-- The end of `exit`. -/
def leave (layer : FileLayer Ip σ) (pid : Pid) : KProg Ip σ Unit := fun k =>
  modifyProc pid (fun p => { p with cwd := none, state := .zombie })
    { k with fs := (k.proc pid).cwd.elim k.fs (layer.iput k.fs) }

theorem exit_eq (layer : FileLayer Ip σ) (pid : Pid) : exit layer pid =
    if pid = initproc then throw .initExiting
    else (do
      (List.finRange NOFILE).forM (exitFile layer pid)
      (List.finRange VMASIZE).forM (exitVma layer pid)
      leave layer pid) := rfl

theorem exit_follows : Follows Kernel.erase (exit layer pid) (exit silentLayer pid) := by
  rw [exit_eq, exit_eq]
  split
  · exact fun _ => rfl
  · refine Follows.bind (Follows.forM fun fd _ => ?_) fun _ =>
      Follows.bind (Follows.forM fun i _ => exitVma_follows i) fun _ => ?_
    · rw [exitFile_release, exitFile_release]
      exact release_follows _ _
    · exact fun _ => rfl

end Erase

/-! ### `exit` after calls to `munmap` -/

/-- The loop of `exit` over the regions, by the table at its start. -/
theorem exitVmas_eq {table : VmaTable} {slots : List (Fin VMASIZE)} (distinct : slots.Nodup)
    (same : ∀ i ∈ slots, (k.proc pid).vma i = table i) :
    slots.forM (exitVma layer pid) k = slots.forM (fun i => exitRegion layer pid (table i) i) k := by
  induction slots generalizing k with
  | nil => rfl
  | cons i rest ih =>
    rw [List.nodup_cons] at distinct
    rw [forM_cons, forM_cons, bind_apply, bind_apply, exitVma_eq, same i List.mem_cons_self]
    cases run : exitRegion layer pid (table i) i k with
    | error _ => rfl
    | ok result =>
      refine ih distinct.2 fun j member => ?_
      rw [← same i List.mem_cons_self, ← exitVma_eq] at run
      obtain ⟨table', procs⟩ := exitVma_ends run
      have different : j ≠ i := fun named => distinct.1 (named ▸ member)
      rw [procs, Function.update_self, Proc.setVma_vma, Function.update_of_ne different]
      exact same j (.tail _ member)

/-- `exit` ends as before when the regions that pass a test are closed first; the others are shared
and lie apart. -/
theorem exit_after {k₁ : Kernel Ip σ} (orderly : layer.Orderly) (placed : (k.proc pid).vma.Placed)
    {test : Fin VMASIZE → Bool} (held : ∀ i, test i = false →
      ((k.proc pid).vma i).isShared = true ∧ (k.proc pid).vma.Apart)
    (closed : ((List.finRange VMASIZE).filter test).forM (exitVma layer pid) k = .ok ((), k₁))
    (exits : exit layer pid k = .ok ((), k')) : exit layer pid k₁ = .ok ((), k') := by
  have distinct := List.nodup_finRange VMASIZE
  have vma : ∀ k₂ k₃ : Kernel Ip σ, (List.finRange NOFILE).forM (exitFile layer pid) k₂ =
      .ok ((), k₃) → (k₃.proc pid).vma = (k₂.proc pid).vma := by
    intro k₂ k₃ files
    obtain ⟨ofile, procs, -, -⟩ := exitFiles_ends () k₃ files
    rw [procs, Function.update_self]
    rfl
  rw [exit_eq] at exits ⊢
  split at exits
  · cases exits
  · next other =>
    rw [if_neg other]
    obtain ⟨⟨⟩, k₂, files, rest⟩ := bind_ends.mp exits
    obtain ⟨⟨⟩, k₃, vmas, left⟩ := bind_ends.mp rest
    obtain ⟨pagetable, procs⟩ := exitVmas_ends _ (distinct.filter test) () k₁ closed
    rw [exitVmas_eq distinct fun i _ => congrFun (vma k k₂ files) i] at vmas
    rw [exitVmas_eq (distinct.filter test) fun _ _ => rfl] at closed
    -- the regions that pass the test move to the front, and past the descriptors
    obtain ⟨k₄, firsts, lasts⟩ := sequence_ends.mp ((forM_partition test _ fun i _ passes j _ fails =>
      exitRegion_commutes orderly (fun named => by rw [named, fails] at passes; cases passes)
        (placed i) (placed j) ((held j fails).2 i j fun named => by
          rw [named, fails] at passes
          cases passes)
        (Or.inr (held j fails).1)).mpr vmas)
    have move : Commutes ((List.finRange NOFILE).forM (exitFile layer pid))
        (((List.finRange VMASIZE).filter test).forM fun i =>
          exitRegion layer pid ((k.proc pid).vma i) i) :=
      Commutes.forM fun i _ => (Commutes.forM fun fd _ =>
        (exitFile_exitRegion orderly fd _ i).symm).symm
    obtain ⟨k₁', closed', files'⟩ := sequence_ends.mp
      ((move k k₄).mp (sequence_ends.mpr ⟨k₂, files, firsts⟩))
    rw [closed] at closed'
    cases closed'
    refine bind_ends.mpr ⟨(), k₄, files', bind_ends.mpr ⟨(), k₃, ?_, left⟩⟩
    rw [exitVmas_eq distinct fun i _ => congrFun (vma k₁ k₄ files') i]
    rw [forM_filter] at lasts
    have turns : (fun i => exitRegion layer pid ((k₁.proc pid).vma i) i) = fun i =>
        if (!test i) = true then exitRegion layer pid ((k.proc pid).vma i) i else pure () := by
      funext i
      rw [procs, Function.update_self, Proc.setVma_vma, freeSlots]
      cases passes : test i with
      | false =>
        rw [if_neg fun member => by rw [List.mem_filter, passes] at member; cases member.2]
        rfl
      | true => rw [if_pos (List.mem_filter.mpr ⟨List.mem_finRange i, passes⟩)]; rfl
    rwa [turns]

/-! ### All the calls -/

/-- What `exit` does to one region: its slot is free afterwards, and pages are unmapped. -/
theorem exitVma_removes {i : Fin VMASIZE} (run : exitVma layer pid i k = .ok ((), k')) :
    (k'.proc pid).vma = Function.update (k.proc pid).vma i ((k.proc pid).vma i).free ∧
      ∀ vpn, (k'.proc pid).pagetable.leaf vpn ≠ none → (k.proc pid).pagetable.leaf vpn ≠ none := by
  obtain ⟨table, procs⟩ := exitVma_ends run
  refine ⟨by rw [procs, Function.update_self, Proc.setVma_vma], fun vpn present => ?_⟩
  rw [exitVma] at run
  dsimp only at run
  split at run
  · obtain ⟨⟨⟨⟩, k₁⟩, unmapped, rest⟩ := bind_eq_ok.mp run
    obtain ⟨s, ends, rfl⟩ := inSpace_ends.mp unmapped
    obtain ⟨-, file, fs, rfl, -⟩ := closeVma_ends rest
    simp only [Kernel.setProc_proc, Kernel.setFile_proc, Kernel.setSpace_proc, Function.update_self,
      Proc.setVma_pagetable, Proc.setTable_pagetable, uvmunmap_leaf ends] at present
    exact fun absent => present (ite_eq_left_iff.mpr fun _ => absent)
  · cases run
    exact present

theorem exitVma_written {i : Fin VMASIZE} (run : exitVma layer pid i k = .ok ((), k')) :
    k'.written = k.written := by
  rw [exitVma] at run
  dsimp only at run
  split at run
  · obtain ⟨⟨⟨⟩, k₁⟩, unmapped, rest⟩ := bind_eq_ok.mp run
    obtain ⟨s, -, rfl⟩ := inSpace_ends.mp unmapped
    obtain ⟨-, file, fs, rfl, -⟩ := closeVma_ends rest
    rfl
  · cases run
    rfl

/-- Nothing is mapped that was not mapped before, and no region is new. -/
theorem Kernel.Dirty.mono {vpn : Nat} (shrinks : (k.proc pid).vma.Shrinks (k'.proc pid).vma)
    (leaves : ∀ vpn, (k'.proc pid).pagetable.leaf vpn ≠ none →
      (k.proc pid).pagetable.leaf vpn ≠ none)
    (dirty : k'.Dirty pid vpn) : k.Dirty pid vpn := by
  obtain ⟨i, used, shared, writable, inside, resident⟩ := dirty
  have same := shrinks i used
  rw [same] at used shared writable inside
  exact ⟨i, used, shared, writable, inside, leaves vpn resident⟩

theorem VmaTable.find_start {table : VmaTable} {i : Fin VMASIZE} (placed : table.Placed)
    (used : (table i).used = true) (first : ∀ j, j < i → (table j).used = true →
      (table i).addr ∉ (table j).range) : VmaTable.find table (table i).addr = some i := by
  have nonempty := (placed i used).nonempty
  refine VmaTable.find_eq_some_iff.mpr ⟨(placed i used).contains_iff.mpr ⟨used, le_rfl, ?_⟩, ?_⟩
  · omega
  · intro j before
    by_contra contains
    rw [Bool.not_eq_false] at contains
    have usedJ : (table j).used = true := by
      rw [Vma.contains, Bool.and_eq_true, Bool.and_eq_true] at contains
      exact contains.1.1
    exact first j before usedJ ((placed j usedJ).contains_iff.mp contains).2

/-- The calls close the regions that pass a test as `exit` does, and are refused for the others,
which are shared. -/
theorem munmapAll_ends {slots : List (Fin VMASIZE)} {results : List Int}
    (sorted : slots.Pairwise (· < ·)) (placed : (k.proc pid).vma.Placed)
    (ordered : (k.proc pid).vma.Apart ∨
      (∀ j, ((k.proc pid).vma j).used = true → j ∈ slots) ∧ ∀ r ∈ results, r = 0)
    (run : munmapAll layer pid slots k = .ok (results, k')) :
    ∃ (test : Fin VMASIZE → Bool) (lost : List (Writeback Ip)),
      (∀ i, test i = false → ((k.proc pid).vma i).isShared = true ∧ ¬ ∀ r ∈ results, r = 0) ∧
      k'.written = lost ++ k.written ∧ (∀ page ∈ lost, k.Dirty pid page.vpn) ∧
      (slots.filter test).forM (exitVma silentLayer pid) k.erase = .ok ((), k'.erase) ∧
      (lost = [] → (slots.filter test).forM (exitVma layer pid) k = .ok ((), k')) := by
  induction slots generalizing k results with
  | nil =>
    cases run
    exact ⟨fun _ => true, [], nofun, rfl, nofun, rfl, fun _ => rfl⟩
  | cons i rest ih =>
    obtain ⟨r, k₁, call, more⟩ := bind_ends.mp run
    obtain ⟨results', k₂, calls, done⟩ := bind_ends.mp more
    cases done
    rw [List.pairwise_cons] at sorted
    have absent : i ∉ rest := fun member => (lt_irrefl i) (sorted.1 i member)
    -- the first call does what `exit` does to its region, or leaves it
    have first : ∃ fs lost, (∀ page ∈ lost, k.Dirty pid page.vpn) ∧ (lost = [] → fs = k.fs) ∧
        (r ≠ 0 ∧ ((k.proc pid).vma i).isShared = true ∧
            k₁ = { k with fs := fs, written := lost ++ k.written } ∨
          exitVma layer pid i { k with fs := fs, written := lost ++ k.written } =
            .ok ((), k₁)) := by
      unfold munmapSlot at call
      dsimp only at call
      split at call
      · next used =>
        have found : VmaTable.find (k.proc pid).vma ((k.proc pid).vma i).addr = some i := by
          refine VmaTable.find_start placed used fun j before usedJ inside => ?_
          rcases ordered with apart | ⟨listed, -⟩
          · have nonempty := (placed i used).nonempty
            exact before.ne (apart.same usedJ used inside ⟨le_rfl, by omega⟩)
          · rcases List.mem_cons.mp (listed j usedJ) with same | member
            · exact before.ne same
            · exact lt_asymm before (sorted.1 j member)
        obtain ⟨fs, lost, dirty, silent, refused | ⟨-, closed⟩⟩ :=
          sys_munmap_whole used (placed i used) found call
        · exact ⟨fs, lost, dirty, silent, Or.inl ⟨by omega, refused.2⟩⟩
        · exact ⟨fs, lost, dirty, silent, Or.inr closed⟩
      · next unused =>
        cases call
        refine ⟨k.fs, [], nofun, fun _ => rfl, Or.inr ?_⟩
        rw [exitVma_eq, exitRegion]
        exact congrFun (if_neg unused) k
    have skip : ∀ (test : Fin VMASIZE → Bool) (b : Bool),
        rest.filter (Function.update test i b) = rest.filter test := by
      intro test b
      refine List.filter_congr fun j member => Function.update_of_ne ?_ _ _
      rintro rfl
      exact absent member
    obtain ⟨fs, lost, dirty, silent, ⟨nonzero, shared, rfl⟩ | closed⟩ := first
    · have apart : (k.proc pid).vma.Apart :=
        ordered.resolve_right fun listed => nonzero (listed.2 r List.mem_cons_self)
      obtain ⟨test, lost', held, written, dirty', erased, real⟩ :=
        @ih { k with fs := fs, written := lost ++ k.written } results' sorted.2 placed (Or.inl apart)
          calls
      refine ⟨Function.update test i false, lost' ++ lost, fun j refused => ?_, ?_, ?_, ?_, ?_⟩
      · by_cases same : j = i
        · exact ⟨same ▸ shared, fun zero => nonzero (zero r List.mem_cons_self)⟩
        · rw [Function.update_of_ne same] at refused
          exact ⟨(held j refused).1, fun zero => (held j refused).2 fun r' member =>
            zero r' (.tail _ member)⟩
      · rw [written, List.append_assoc]
      · intro page member
        exact (List.mem_append.mp member).elim (dirty' page) (dirty page)
      · rw [List.filter_cons_of_neg (by rw [Function.update_self]; exact Bool.false_ne_true), skip]
        exact erased
      · intro none
        obtain ⟨rfl, rfl⟩ := List.append_eq_nil_iff.mp none
        rw [List.filter_cons_of_neg (by rw [Function.update_self]; exact Bool.false_ne_true), skip]
        have same := silent rfl
        subst same
        exact real rfl
    · obtain ⟨vma, leaves⟩ := exitVma_removes closed
      have shrinks : (k.proc pid).vma.Shrinks (k₁.proc pid).vma := by
        rw [vma]
        exact VmaTable.shrinks_free _ _
      have later : (k₁.proc pid).vma.Apart ∨
          (∀ j, ((k₁.proc pid).vma j).used = true → j ∈ rest) ∧ ∀ r ∈ results', r = 0 := by
        refine ordered.imp shrinks.apart fun listed => ⟨fun j used => ?_, fun r' member =>
          listed.2 r' (.tail _ member)⟩
        have same := shrinks j used
        refine (List.mem_cons.mp (listed.1 j (same ▸ used))).resolve_left ?_
        rintro rfl
        rw [vma, Function.update_self] at used
        cases used
      obtain ⟨test, lost', held, written, dirty', erased, real⟩ :=
        ih sorted.2 (shrinks.placed placed) later calls
      have front : (i :: rest).filter (Function.update test i true) = i :: rest.filter test := by
        rw [List.filter_cons_of_pos (Function.update_self _ _ _), skip]
      refine ⟨Function.update test i true, lost' ++ lost, fun j refused => ?_, ?_, ?_, ?_, ?_⟩
      · have different : j ≠ i := by
          rintro rfl
          rw [Function.update_self] at refused
          cases refused
        rw [Function.update_of_ne different] at refused
        have here := held j refused
        rw [vma, Function.update_of_ne different] at here
        exact ⟨here.1, fun zero => here.2 fun r' member => zero r' (.tail _ member)⟩
      · rw [written, exitVma_written closed, List.append_assoc]
      · intro page member
        rcases List.mem_append.mp member with later | earlier
        · exact (dirty' page later).mono shrinks leaves
        · exact dirty page earlier
      · have closed' := (exitVma_follows i).ends closed
        rw [front]
        exact sequence_ends.mpr ⟨k₁.erase, closed', erased⟩
      · intro none
        obtain ⟨rfl, rfl⟩ := List.append_eq_nil_iff.mp none
        have same := silent rfl
        subst same
        rw [front]
        exact sequence_ends.mpr ⟨k₁, closed, real rfl⟩

/-! ### The result -/

/-- The file system changes by closing files only. -/
inductive FileLayer.Closes (layer : FileLayer Ip σ) (fs : σ) : σ → Prop
  | none : layer.Closes fs fs
  | iput {fs' : σ} (ip : Ip) (earlier : layer.Closes fs fs') : layer.Closes fs (layer.iput fs' ip)
  | pipeclose {fs' : σ} (f : Fp) (writable : Bool) (earlier : layer.Closes fs fs') :
    layer.Closes fs (layer.pipeclose fs' f writable)

theorem FileLayer.Closes.close {fs fs' : σ} (earlier : layer.Closes fs fs') (f : Fp)
    (file : File Ip) : layer.Closes fs (layer.close f file fs') := by
  rcases layer.close_cases f file with same | ⟨ip, same⟩ | same <;> rw [same]
  · exact earlier
  · exact earlier.iput ip
  · exact earlier.pipeclose f file.writable

/-- The file system of the kernel came about by closing files, and no page was written back. -/
def Kernel.OnlyCloses (layer : FileLayer Ip σ) (k k' : Kernel Ip σ) : Prop :=
  layer.Closes k.fs k'.fs ∧ k'.written = k.written

theorem Kernel.OnlyCloses.release {pointer : Proc Ip → Option Fp} {change : Proc Ip → Proc Ip}
    {k₁ : Kernel Ip σ} (only : k.OnlyCloses layer k₁)
    (run : release layer pid pointer change k₁ = .ok ((), k')) : k.OnlyCloses layer k' := by
  cases present : pointer (k₁.proc pid) with
  | none =>
    rw [(release_none present).mp run]
    exact only
  | some f =>
    rw [((release_some present).mp run).2]
    exact ⟨only.1.close f (k₁.file f), only.2⟩

/-- `exit` closes files and does nothing else to the file system. -/
theorem exit_onlyCloses (run : exit layer pid k = .ok ((), k')) : k.OnlyCloses layer k' := by
  rw [exit_eq] at run
  split at run
  · cases run
  · obtain ⟨⟨⟩, k₁, files, rest⟩ := bind_ends.mp run
    obtain ⟨⟨⟩, k₂, vmas, left⟩ := bind_ends.mp rest
    have closesFiles : Ensures ((List.finRange NOFILE).forM (exitFile layer pid)) k
        fun _ k₁ => k.OnlyCloses layer k₁ := by
      refine Ensures.forM_invariant ⟨.none, rfl⟩ fun fd _ k₃ only u k₄ turn => ?_
      rw [exitFile_release] at turn
      exact only.release turn
    have closesVmas : Ensures ((List.finRange VMASIZE).forM (exitVma layer pid)) k₁
        fun _ k₂ => k.OnlyCloses layer k₂ := by
      refine Ensures.forM_invariant (closesFiles () k₁ files) fun i _ k₃ only u k₄ turn => ?_
      rw [exitVma_eq, exitRegion] at turn
      split at turn
      · obtain ⟨k₅, unmapped, closed⟩ := sequence_ends.mp turn
        obtain ⟨s, -, rfl⟩ := inSpace_ends.mp unmapped
        have kept : k.OnlyCloses layer (k₃.setSpace pid s) := only
        rw [closeVma_release] at closed
        exact kept.release closed
      · cases turn
        exact only
    have second := closesVmas () k₂ vmas
    rw [modifyProc_ends.mp left]
    refine ⟨?_, second.2⟩
    show layer.Closes k.fs ((k₂.proc pid).cwd.elim k₂.fs (layer.iput k₂.fs))
    cases (k₂.proc pid).cwd with
    | none => exact second.1
    | some ip => exact second.1.iput ip

/-- **`exit` against `munmap` of everything.** Let a process call `munmap` on each of its regions and
then `exit`, where the regions lie apart or every call returns `0`. The processes, the files and the
memory are afterwards what `exit` alone makes of them. `exit` alone only closes files; the calls
wrote back resident pages of shared, writable regions, and if there were none the file system is the
same, too. -/
theorem exit_equals_munmaps {k₁ : Kernel Ip σ} {results : List Int}
    (placed : (k.proc pid).vma.Placed)
    (calls : munmapAll layer pid (List.finRange VMASIZE) k = .ok (results, k₁))
    (ordered : (k.proc pid).vma.Apart ∨ ∀ r ∈ results, r = 0)
    (exits : exit layer pid k = .ok ((), k')) :
    k.OnlyCloses layer k' ∧
    ∃ last lost, exit layer pid k₁ = .ok ((), last) ∧
      last.proc = k'.proc ∧ last.file = k'.file ∧ last.ram = k'.ram ∧
      last.written = lost ++ k.written ∧ (∀ page ∈ lost, k.Dirty pid page.vpn) ∧
      (layer.Orderly → (¬ ∃ vpn, k.Dirty pid vpn) → last.fs = k'.fs) := by
  obtain ⟨test, lost, held, written, dirty, erased, real⟩ := munmapAll_ends
    (List.pairwise_lt_finRange VMASIZE) placed
    (ordered.imp_right fun zero => ⟨fun j _ => List.mem_finRange j, zero⟩) calls
  have shared : ∀ i, test i = false →
      ((k.proc pid).vma i).isShared = true ∧ (k.proc pid).vma.Apart :=
    fun i refused => ⟨(held i refused).1, ordered.resolve_right (held i refused).2⟩
  have images := exit_after silentLayer_orderly placed shared erased (exit_follows.ends exits)
  obtain ⟨last, ends, same⟩ := exit_follows.lift images
  have procs : last.erase.proc = k'.erase.proc := congrArg Kernel.proc same
  have files : last.erase.file = k'.erase.file := congrArg Kernel.file same
  have memory : last.erase.ram = k'.erase.ram := congrArg Kernel.ram same
  refine ⟨exit_onlyCloses exits, last, lost, ends, procs, files, memory, ?_, dirty,
    fun orderly clean => ?_⟩
  · rw [(exit_onlyCloses ends).2, written]
  · have none : lost = [] := by
      refine List.eq_nil_iff_forall_not_mem.mpr fun page member => clean ⟨_, dirty page member⟩
    have whole := exit_after orderly placed shared (real none) exits
    rw [whole] at ends
    cases ends
    rfl

/-- `exit` by process 1, and `munmap` of its regions before an `exit`: the results of the calls and
the two kernels, if all of it ends. -/
def exitBothWays (k : Kernel Unit (List UInt8)) :
    Option (List Int × Kernel Unit (List UInt8) × Kernel Unit (List UInt8)) :=
  match exit oneFile firstPid k, munmapAll oneFile firstPid (List.finRange VMASIZE) k with
  | .ok ((), k'), .ok (results, k₁) =>
    match exit oneFile firstPid k₁ with
    | .ok ((), last) => some (results, k', last)
    | .error _ => none
  | _, _ => none

theorem exitBothWays_ends {k k' last : Kernel Unit (List UInt8)} {results : List Int}
    (both : exitBothWays k = some (results, k', last)) :
    exit oneFile firstPid k = .ok ((), k') ∧ ∃ k₁,
      munmapAll oneFile firstPid (List.finRange VMASIZE) k = .ok (results, k₁) ∧
      exit oneFile firstPid k₁ = .ok ((), last) := by
  unfold exitBothWays at both
  split at both
  · next k' results k₁ exits calls =>
    split at both
    · next last' ends =>
      cases both
      exact ⟨exits, k₁, calls, ends⟩
    · cases both
  · cases both

/-- A resident shared page and a resident private page. -/
theorem exit_equals_munmaps_small : ∃ k k' k₁ last results lost,
    Run (Kernel.Step oneFile) (smallKernel .inode (some ()))
      [mapPagesOf 4096 3 1, mapPagesOf 4096 3 2, ⟨firstPid, .access topPage (some 7)⟩,
        ⟨firstPid, .access (topPage - 8192) (some 8)⟩] k ∧
    munmapAll oneFile firstPid (List.finRange VMASIZE) k = .ok (results, k₁) ∧
    exit oneFile firstPid k = .ok ((), k') ∧ k.OnlyCloses oneFile k' ∧
    exit oneFile firstPid k₁ = .ok ((), last) ∧ last.proc = k'.proc ∧ last.file = k'.file ∧
    last.ram = k'.ram ∧ last.written = lost ++ k.written ∧
    ∀ page ∈ lost, k.Dirty firstPid page.vpn := by
  have replayed : (replay oneFile (fun _ _ => true)
      [mapPagesOf 4096 3 1, mapPagesOf 4096 3 2, ⟨firstPid, .access topPage (some 7)⟩,
        ⟨firstPid, .access (topPage - 8192) (some 8)⟩] (smallKernel .inode (some ()))).any fun k =>
      (exitBothWays k).any fun ends => ends.1.all (· == 0) := by
    decide +kernel
  rw [Option.any_eq_true] at replayed
  obtain ⟨k, reached, checks⟩ := replayed
  rw [Option.any_eq_true] at checks
  obtain ⟨⟨results, k', last⟩, both, zero⟩ := checks
  rw [List.all_eq_true] at zero
  have run := (run_of_replay (fun _ _ => True) (fun _ _ _ => trivial) reached).mono
    fun _ _ _ => And.left
  have placed := (placed_of_run (smallKernel_noRegions _ _) run).tables firstPid
  obtain ⟨exits, k₁, calls, -⟩ := exitBothWays_ends both
  obtain ⟨only, last, lost, ends, procs, files, memory, written, dirty, -⟩ :=
    exit_equals_munmaps placed calls (Or.inr fun r member => eq_of_beq (zero r member)) exits
  exact ⟨k, k', k₁, last, results, lost, run, calls, exits, only, ends, procs, files, memory, written,
    dirty⟩

/-- **`exit` drops what was stored to a shared page.** One page is mapped shared and stored to, which
faults first and then goes through: after `exit` the file has its old first byte, after `munmap` and
`exit` the stored one. -/
theorem exit_loses_stores : ∃ k k' k₁ last results,
    Run (Kernel.Step oneFile) (smallKernel .inode (some ()))
      [mapPagesOf 4096 3 1, ⟨firstPid, .access topPage (some 7)⟩,
        ⟨firstPid, .access topPage (some 7)⟩] k ∧
    exit oneFile firstPid k = .ok ((), k') ∧
    munmapAll oneFile firstPid (List.finRange VMASIZE) k = .ok (results, k₁) ∧
    (∀ r ∈ results, r = 0) ∧ exit oneFile firstPid k₁ = .ok ((), last) ∧
    k'.fs.head? = some 104 ∧ last.fs.head? = some 7 := by
  have replayed : (replay oneFile (fun _ _ => true)
      [mapPagesOf 4096 3 1, ⟨firstPid, .access topPage (some 7)⟩,
        ⟨firstPid, .access topPage (some 7)⟩]
      (smallKernel .inode (some ()))).any fun k =>
        (exitBothWays k).any fun ends => ends.1.all (· == 0) && ends.2.1.fs.head? == some 104 &&
          ends.2.2.fs.head? == some 7 := by
    decide +kernel
  rw [Option.any_eq_true] at replayed
  obtain ⟨k, reached, checks⟩ := replayed
  rw [Option.any_eq_true] at checks
  obtain ⟨⟨results, k', last⟩, both, checks⟩ := checks
  simp only [Bool.and_eq_true, beq_iff_eq, List.all_eq_true] at checks
  obtain ⟨⟨zero, old⟩, stored⟩ := checks
  obtain ⟨exits, k₁, calls, ends⟩ := exitBothWays_ends both
  exact ⟨k, k', k₁, last, results, (run_of_replay (fun _ _ => True) (fun _ _ _ => trivial)
    reached).mono fun _ _ _ => And.left, exits, calls, zero, ends, old, stored⟩

end Csc3150.Mmap
