/-
**Every system call leaves the kernel in order.**

The calls on open files, `fork` and `exit` keep the counts that the calls on names keep. So between the
calls of any run the kernel is in order, if no user write reaches a directory.

* `InOrder.lend` — a call on an open file works with the reference of the file;
* `filewrite_stays`, `fileclose_stays`, … — the calls on open files;
* `Syscall`, `serves_inOrder` — one system call of a process;
* `names_balance` — in every run: locks, references and transactions balance over each call on names.
-/

import Csc3150.Library.Transition
import Csc3150.Namespace.Balance

namespace Csc3150.Namespace

open ByteBuffer FileSystem Outcome Program Search Tally Transition
open Program.Script (atomic)

/-! ### The inode of an open file -/

/-- What the other open files have. -/
def Kernel.restBut (limit : Nat) (watch : FileIx → Prop) (k : Kernel) (f : FileIx) : Rest where
  limit := limit
  uses i := (k.opensBut f).count i
  files i := ∃ g, watch g ∧ g ≠ f ∧ (k.file g).node = some i

/-- What a call on open files leaves: the processes stay in their directories. -/
structure Stays (limit : Nat) (sb : Superblock) (watch : FileIx → Prop) (k k' : Kernel) : Prop where
  order : InOrder limit sb watch k'
  modes : ∀ f, (k'.file f).writable = (k.file f).writable
  dirs : ∀ q, (k'.proc q).dir = (k.proc q).dir

section Lending

variable {limit : Nat} {sb : Superblock} {watch : FileIx → Prop} {k k' : Kernel} {fs : Fs} {p : Pid}
  {f g : FileIx} {i : Ip}

theorem InOrder.same (here : InOrder limit sb watch k) : Stays limit sb watch k k :=
  ⟨here, fun _ => rfl, fun _ => rfl⟩

theorem InOrder.fewer {watch' : FileIx → Prop} (here : InOrder limit sb watch k)
    (fewer : ∀ g, watch' g → watch g) : InOrder limit sb watch' k :=
  ⟨here.books.divide rfl (fun _ => rfl) (fun _ => Int.natCast_nonneg _) fun j used => by
    obtain ⟨g, watched, points⟩ := used
    exact here.books.files j ⟨g, fewer g watched, points⟩, here.closed⟩

theorem Stays.trans {middle : Kernel} (first : Stays limit sb watch k middle)
    (second : Stays limit sb watch middle k') : Stays limit sb watch k k' :=
  ⟨second.order, fun g => (second.modes g).trans (first.modes g), fun q =>
    (second.dirs q).trans (first.dirs q)⟩

theorem setProc_self (proc : Proc) : (setProc k p proc).proc p = proc := Function.update_self ..

theorem setProc_of_ne (proc : Proc) {q : Pid} (other : q ≠ p) : (setProc k p proc).proc q = k.proc q :=
  Function.update_of_ne other ..

theorem mem_opensBut (other : g ≠ f) (points : (k.file g).node = some i) : i ∈ k.opensBut f :=
  List.mem_filterMap.mpr ⟨g, (List.mem_erase_of_ne other).mpr (List.mem_finRange g), points⟩

theorem InOrder.lend (here : InOrder limit sb watch k) (points : (k.file f).node = some i) :
    Books sb (k.restBut limit watch f) (i :: k.cwds) [] k.fs := by
  have opens : k.opens.Perm (i :: k.opensBut f) := by
    have perm := opens_perm k f
    rwa [points] at perm
  refine here.books.divide rfl (fun j => ?_) (fun j => Int.natCast_nonneg _) fun j used => ?_
  · show ((k.opensBut f).count j : Int) + _ = (k.opens.count j : Int) + _
    rw [opens.count_eq j, List.count_cons, List.count_cons]
    push_cast
    omega
  · obtain ⟨g, watched, other, points'⟩ := used
    exact ⟨Int.natCast_pos.mpr (List.count_pos_iff.mpr (mem_opensBut other points')),
      (here.books.files j ⟨g, watched, points'⟩).2⟩

/-- The file has its reference back. -/
theorem takeBack (after : Books sb (k.restBut limit watch f) (i :: k.cwds) [] fs)
    (points : (k.file f).node = some i)
    (typed : watch f → diskType sb fs i ≠ 0 ∧ diskType sb fs i ≠ T_DIR) :
    Books sb (k.rest limit watch) k.cwds [] fs := by
  have opens : k.opens.Perm (i :: k.opensBut f) := by
    have perm := opens_perm k f
    rwa [points] at perm
  refine after.divide rfl (fun j => ?_) (fun j => Int.natCast_nonneg _) fun j used => ?_
  · show (k.opens.count j : Int) + _ = ((k.opensBut f).count j : Int) + _
    rw [opens.count_eq j, List.count_cons, List.count_cons]
    push_cast
    omega
  · obtain ⟨g, watched, points'⟩ := used
    refine ⟨Int.natCast_pos.mpr (List.count_pos_iff.mpr (mem_opens points')), ?_⟩
    by_cases isF : g = f
    · subst isF
      rw [points] at points'
      cases points'
      exact typed watched
    · exact (after.files j ⟨g, watched, isF, points'⟩).2

/-- The file is closed for good. -/
theorem forget {file : File} (after : Books sb (k.restBut limit watch f) k.cwds [] fs)
    (files : k'.file = Function.update k.file f file) (none : file.node = none) :
    Books sb (k'.rest limit watch) k.cwds [] fs := by
  have opens : k'.opens.Perm (k.opensBut f) := by
    have now := opens_setFile (k := k) (f := f) file
    rw [none] at now
    have same : k'.opens = (setFile k f file).opens := opens_eq fun g => by rw [files, setFile]
    rw [same]
    exact now
  refine after.divide rfl (fun j => ?_) (fun j => Int.natCast_nonneg _) fun j used => ?_
  · show (k'.opens.count j : Int) + _ = ((k.opensBut f).count j : Int) + _
    rw [opens.count_eq j]
  · obtain ⟨g, watched, points⟩ := used
    rw [files] at points
    have other : g ≠ f := by
      rintro rfl
      rw [Function.update_self, none] at points
      cases points
    rw [Function.update_of_ne other] at points
    refine ⟨Int.natCast_pos.mpr (List.count_pos_iff.mpr ?_), (after.files j ⟨g, watched, other, points⟩).2⟩
    exact opens.mem_iff.mpr (mem_opensBut other points)

/-- A file of a type with an inode is open. -/
theorem InOrder.points (here : InOrder limit sb watch k) (type : (k.file f).type.hasInode = true) :
    (k.file f).node = some (k.file f).ip := by
  refine if_pos ⟨?_, type⟩
  by_contra unused
  have closed := here.closed f (by omega)
  rw [type] at closed
  cases closed

/-- What is open and taken for a file is one. -/
theorem InOrder.typed (here : InOrder limit sb watch k) (points : (k.file f).node = some i)
    (watched : watch f) : diskType sb k.fs i ≠ 0 ∧ diskType sb k.fs i ≠ T_DIR :=
  (here.books.files i ⟨f, watched, points⟩).2

/-- The offset of an open file has moved. -/
theorem moved_stays (here : InOrder limit sb watch k) {off : UInt32}
    (files : k'.file = Function.update k.file f { k.file f with off := off }) (procs : k'.proc = k.proc)
    (points : (k.file f).node = some i)
    (after : Books sb (k.restBut limit watch f) (i :: k.cwds) [] k'.fs)
    (typed : diskType sb k'.fs i = diskType sb k.fs i) : Stays limit sb watch k k' := by
  have same : ∀ g, (k'.file g).node = (k.file g).node := by
    intro g
    rw [files]
    by_cases isF : g = f
    · rw [isF, Function.update_self]
      rfl
    · rw [Function.update_of_ne isF]
  have cwds : k'.cwds = k.cwds := cwds_eq fun q => by rw [procs]
  refine ⟨⟨?_, fun g => ?_⟩, fun g => ?_, fun q => by rw [procs]⟩
  · rw [rest_eq same, cwds]
    refine takeBack after points fun watched => ?_
    rw [typed]
    exact here.typed points watched
  · rw [files]
    by_cases isF : g = f
    · rw [isF, Function.update_self]
      exact here.closed f
    · rw [Function.update_of_ne isF]
      exact here.closed g
  · rw [files]
    by_cases isF : g = f
    · rw [isF, Function.update_self]
    · rw [Function.update_of_ne isF]

/-- Another count, of a file that stays open or closed. -/
theorem file_stays (here : InOrder limit sb watch k) {file : File}
    (files : k'.file = Function.update k.file f file) (dirs : ∀ q, (k'.proc q).dir = (k.proc q).dir)
    (disk : k'.fs = k.fs) (node : file.node = (k.file f).node)
    (closed : file.ref < 1 → file.type.hasInode = false)
    (mode : file.writable = (k.file f).writable) : Stays limit sb watch k k' := by
  have same : ∀ g, (k'.file g).node = (k.file g).node := by
    intro g
    rw [files]
    by_cases isF : g = f
    · rw [isF, Function.update_self, node]
    · rw [Function.update_of_ne isF]
  have cwds : k'.cwds = k.cwds := cwds_eq dirs
  refine ⟨⟨?_, fun g => ?_⟩, fun g => ?_, dirs⟩
  · rw [rest_eq same, cwds, disk]
    exact here.books
  · rw [files]
    by_cases isF : g = f
    · rw [isF, Function.update_self]
      exact closed
    · rw [Function.update_of_ne isF]
      exact here.closed g
  · rw [files]
    by_cases isF : g = f
    · rw [isF, Function.update_self, mode]
    · rw [Function.update_of_ne isF]

/-- A file is closed for good. -/
theorem closed_stays (here : InOrder limit sb watch k)
    (files : k'.file = Function.update k.file f { k.file f with ref := 0, type := .none })
    (procs : k'.proc = k.proc) (after : Books sb (k.restBut limit watch f) k.cwds [] k'.fs) :
    Stays limit sb watch k k' := by
  have cwds : k'.cwds = k.cwds := cwds_eq fun q => by rw [procs]
  refine ⟨⟨?_, fun g => ?_⟩, fun g => ?_, fun q => by rw [procs]⟩
  · rw [cwds]
    exact forget after files (node_eq_none Int.one_pos)
  · rw [files]
    by_cases isF : g = f
    · rw [isF, Function.update_self]
      exact fun _ => rfl
    · rw [Function.update_of_ne isF]
      exact here.closed g
  · rw [files]
    by_cases isF : g = f
    · rw [isF, Function.update_self]
    · rw [Function.update_of_ne isF]

/-- The descriptors of a process change. -/
theorem setFd_stays (here : InOrder limit sb watch k) (p : Pid) (ofile : Fd → Option FileIx) :
    Stays limit sb watch k (setProc k p { k.proc p with ofile := ofile }) := by
  have dirs : ∀ q, ((setProc k p { k.proc p with ofile := ofile }).proc q).dir = (k.proc q).dir := by
    intro q
    by_cases isP : q = p
    · subst isP
      rw [setProc_self]
      rfl
    · rw [setProc_of_ne _ isP]
  refine ⟨⟨?_, here.closed⟩, fun _ => rfl, dirs⟩
  rw [cwds_eq dirs]
  exact here.books

end Lending

/-! ### Reading and writing -/

/-- The offset after `r` bytes. -/
def File.advance (r : Int) (file : File) : File :=
  if 0 < r then { file with off := file.off + UInt32.ofNat r.toNat } else file

theorem advance_eq (r : Int) (file : File) : ∃ off, file.advance r = { file with off := off } := by
  rw [File.advance]
  split_ifs
  · exact ⟨_, rfl⟩
  · exact ⟨file.off, rfl⟩

/-- A write of `amount` bytes at `off` to an inode of this type: to no directory, and to a symbolic link
only within the bound on targets. -/
def Admits (limit : Nat) (type : Int16) (off : UInt32) (amount : Nat) : Prop :=
  type ≠ T_DIR ∧ (type = T_SYMLINK → MAXFILE * BSIZE ≤ limit ∨ off.toNat + amount ≤ limit)

section Files

variable {limit : Nat} {sb : Superblock} {watch : FileIx → Prop} {k : Kernel} {p : Pid} {f : FileIx}
  {i : Ip}

theorem fileread_stays (here : InOrder limit sb watch k) (dst : CopyOut) (n : Nat) :
    Meets (fileread sb f dst n).run k Awake fun _ k' => Stays limit sb watch k k' := by
  refine .seq_run (a := k.file f) rfl ?_
  by_cases unreadable : (k.file f).readable = false
  · rw [if_pos unreadable]
    exact .done here.same
  · rw [if_neg unreadable]
    cases type : (k.file f).type with
    | none => exact .atomic (.of_error rfl Halt.noConfusion)
    | pipe => exact .done here.same
    | device => exact .done here.same
    | inode =>
      have points := here.points (f := f) (by rw [type]; rfl)
      refine onFs₁_seq ((here.lend points).ilock List.mem_cons_self List.not_mem_nil)
        fun _ fs₁ locked => ?_
      obtain ⟨locked, disk, number, -⟩ := locked
      refine onFs₁_seq (locked.readi List.mem_cons_self dst _ _) fun r fs₂ unchanged => ?_
      subst unchanged
      refine .seq_run (a := ()) rfl (onFs₁_seq locked.iunlock fun _ fs₃ unlocked => .done ?_)
      obtain ⟨off, moved⟩ := advance_eq r.1 (k.file f)
      have keeps : Keeps sb k.fs fs₃ (k.file f).ip :=
        (Keeps.same disk (number _)).trans (Keeps.same unlocked.2.1 (unlocked.2.2 _))
      have files : Function.update k.file f ((k.file f).advance r.1) =
          Function.update k.file f { k.file f with off := off } := congrArg _ moved
      exact moved_stays here files rfl points unlocked.1 keeps.2

/-- A write that is admitted leaves the inode tidy. -/
theorem writei_admitted {rest : Rest} {held : List Ip} {fs : Fs} {src : CopyIn} {off n : UInt32}
    (locked : Books sb rest held [i] fs) (admits : Admits rest.limit (fs.inode i).type off n.toNat) :
    Meets (Fs.writei sb i src off n) fs Awake fun r fs' => Books sb rest held [i] fs' ∧
      Keeps sb fs fs' i ∧ (fs'.inode i).type = (fs.inode i).type ∧ r ≤ n.toNat := by
  have first : i ∈ [i] := List.mem_cons_self
  refine (locked.writeFile first admits.1 src off n).mono fun r fs' wrote => ?_
  rcases wrote with ⟨rfl, rfl⟩ | ⟨wrote, sameType, number, others, tot, rfl, upper, size⟩
  · exact ⟨locked, .same rfl rfl, rfl, by omega⟩
  · refine ⟨wrote.tighten (TidyBut.all (number ▸ others) fun _ => ⟨fun isDir => ?_, fun isLink => ?_⟩),
      ⟨number, ?_⟩, sameType, Int.ofNat_le.mpr upper⟩
    · exact absurd (sameType ▸ (wrote.diskType_eq first).symm.trans isDir) admits.1
    · have link : (fs.inode i).type = T_SYMLINK := sameType ▸ (wrote.diskType_eq first).symm.trans isLink
      have before := (locked.tidy _ (locked.ledger.cached first).inUse).short
        ((locked.diskType_eq first).trans link)
      rw [content_length, ← (locked.ledger.cached first).same] at before
      rw [content_length, ← (wrote.ledger.cached first).same]
      rcases admits.2 link with loose | fits
      · exact (wrote.ledger.size_le first).trans loose
      · rw [size]
        exact max_le before (by omega)
    · rw [wrote.diskType_eq first, locked.diskType_eq first, sameType]

/-- The loop of `filewrite`. -/
theorem filewriteFrom_stays {src : CopyIn} {n : Nat} : ∀ {fuel written : Nat} {k : Kernel},
    InOrder limit sb watch k → (k.file f).node = some i →
    Admits limit (diskType sb k.fs i) (k.file f).off (n - written) →
    Meets (filewriteFrom sb f i src n fuel written).run k Awake fun _ k' => Stays limit sb watch k k' := by
  intro fuel
  induction fuel with
  | zero => exact fun {written k} here _ _ => .done here.same
  | succ fuel ih =>
    intro written k here points admits
    rw [filewriteFrom]
    by_cases more : written < n
    · rw [if_pos more]
      refine during_begin ?_
      refine during_seq₁ ((here.lend points).ilock List.mem_cons_self List.not_mem_nil)
        fun _ fs₁ locked => ?_
      obtain ⟨locked, disk, number, isType⟩ := locked
      refine .seq_run (a := k.file f) rfl ?_
      have chunk : (UInt32.ofNat (min (n - written) maxWrite)).toNat = min (n - written) maxWrite :=
        UInt32.toNat_ofNat_of_lt' (lt_of_le_of_lt (min_le_right _ _) (by decide))
      have admitted : Admits limit (fs₁.inode i).type (k.file f).off
          (UInt32.ofNat (min (n - written) maxWrite)).toNat := by
        rw [isType, chunk]
        exact ⟨admits.1, fun link => (admits.2 link).imp id fun fits => by omega⟩
      refine during_seq₁ (writei_admitted locked admitted) fun r fs₂ wrote => ?_
      obtain ⟨wrote, kept, -, upper⟩ := wrote
      refine .seq_run (a := ()) rfl (onFs₁_seq wrote.iunlock fun _ fs₃ unlocked => .seq_run rfl ?_)
      have keeps : Keeps sb k.fs fs₃ i :=
        ((Keeps.same disk (number i)).trans kept).trans (.same unlocked.2.1 (unlocked.2.2 i))
      -- one round is done, and the kernel is in order again
      suffices round : ∀ k' : Kernel, k'.file = Function.update k.file f ((k.file f).advance r) →
          k'.proc = k.proc → k'.fs = fs₃ →
          Meets (if r ≠ (min (n - written) maxWrite : Nat) then pure (-1) else
            filewriteFrom sb f i src n fuel (written + min (n - written) maxWrite)).run k' Awake
              fun _ k' => Stays limit sb watch k k' from round _ rfl rfl rfl
      rintro k' files procs rfl
      obtain ⟨off, moved⟩ := advance_eq r (k.file f)
      have stays : Stays limit sb watch k k' :=
        moved_stays here (moved ▸ files) procs points unlocked.1 keeps.2
      by_cases short : r ≠ (min (n - written) maxWrite : Nat)
      · rw [if_pos short]
        exact .done stays
      · rw [if_neg short]
        have whole := not_not.mp short
        have positive : 0 < min (n - written) maxWrite := lt_min (by omega) (by decide)
        have next : k'.file f =
            { k.file f with off := (k.file f).off + UInt32.ofNat (min (n - written) maxWrite) } := by
          rw [files, Function.update_self, File.advance, if_pos (by omega), whole, Int.toNat_natCast]
        refine (ih stays.order ?_ ?_).mono fun _ k'' after => stays.trans after
        · rw [next]
          exact points
        · rw [keeps.2, next]
          refine ⟨admits.1, fun link => (admits.2 link).imp id fun fits => ?_⟩
          rw [UInt32.toNat_add, chunk]
          have wraps := Nat.mod_le ((k.file f).off.toNat + min (n - written) maxWrite) (2 ^ 32)
          omega
    · rw [if_neg more]
      exact .done here.same

theorem filewrite_stays (here : InOrder limit sb watch k) {src : CopyIn} {n : Nat}
    (admits : (k.file f).writable = true → (k.file f).type = .inode →
      Admits limit (diskType sb k.fs (k.file f).ip) (k.file f).off n) :
    Meets (filewrite sb f src n).run k Awake fun _ k' => Stays limit sb watch k k' := by
  refine .seq_run (a := k.file f) rfl ?_
  by_cases readOnly : (k.file f).writable = false
  · rw [if_pos readOnly]
    exact .done here.same
  · rw [if_neg readOnly]
    cases type : (k.file f).type with
    | none => exact .atomic (.of_error rfl Halt.noConfusion)
    | pipe => exact .done here.same
    | device => exact .done here.same
    | inode =>
      exact filewriteFrom_stays here (here.points (by rw [type]; rfl))
        (admits (Bool.eq_true_of_not_eq_false readOnly) type)

/-! ### Counting the references to a file -/

/-- A file with another count stays open. -/
theorem node_of_ref {file : File} {ref : Int} (open_ : 0 < file.ref) (stays : 0 < ref) :
    { file with ref := ref }.node = file.node := by
  rw [File.node, File.node]
  dsimp only
  congr 1
  exact propext (and_congr_left fun _ => iff_of_true stays open_)

theorem filedup_stays (here : InOrder limit sb watch k) :
    Meets (filedup f).run k Awake fun _ k' => Stays limit sb watch k k' := by
  rw [filedup]
  refine .atomic ?_
  by_cases dead : (k.file f).ref < 1
  · exact .of_error (if_pos dead) Halt.noConfusion
  · refine .of_ok (if_neg dead) (file_stays here rfl (fun _ => rfl) rfl (node_of_ref ?_ ?_)
      (fun unused => absurd unused ?_) rfl)
    · omega
    · omega
    · dsimp only
      omega

theorem fileclose_stays (here : InOrder limit sb watch k) :
    Meets (fileclose sb f).run k Awake fun _ k' => Stays limit sb watch k k' := by
  have drop : (fileDrop f).run k = if (k.file f).ref < 1 then .error .fileclose
      else if 0 < (k.file f).ref - 1
        then .ok (none, setFile k f { k.file f with ref := (k.file f).ref - 1 })
      else .ok (some (k.file f), setFile k f { k.file f with ref := 0, type := .none }) := by
    rw [fileDrop, Script.run_atomic]
  rw [fileclose]
  by_cases dead : (k.file f).ref < 1
  · rw [if_pos dead] at drop
    have stops : Meets (fileDrop f).run k Awake fun _ _ => False := .of_error drop Halt.noConfusion
    exact .seq stops fun _ _ none => none.elim
  · rw [if_neg dead] at drop
    by_cases shared : 0 < (k.file f).ref - 1
    · rw [if_pos shared] at drop
      refine .seq_run drop (.done (file_stays here rfl (fun _ => rfl) rfl (node_of_ref ?_ shared)
        (fun unused => absurd unused ?_) rfl))
      · omega
      · dsimp only
        omega
    · rw [if_neg shared] at drop
      refine .seq_run drop ?_
      dsimp only
      by_cases held : (k.file f).type.hasInode = true
      · rw [if_pos held]
        have lent := here.lend (here.points held)
        exact .seq_run rfl (onFs_seq (lent.iput fun isLocked => absurd isLocked List.not_mem_nil)
          fun _ fs₁ after => .of_ok rfl (closed_stays here rfl rfl after.1))
      · rw [if_neg held]
        have none : (k.file f).node = none := if_neg fun open' => held open'.2
        refine .done (file_stays here rfl (fun _ => rfl) rfl ?_ (fun _ => rfl) rfl)
        rw [none]
        exact node_eq_none Int.one_pos

/-! ### The calls -/

theorem sys_dup_stays (here : InOrder limit sb watch k) (fd : Fd) :
    Meets (sys_dup p fd).run k Awake fun _ k' => Stays limit sb watch k k' := by
  refine .seq_run (a := (k.proc p).ofile fd) rfl ?_
  cases (k.proc p).ofile fd with
  | none => exact .done here.same
  | some f =>
    dsimp only
    rcases fdalloc_ends k p f with ⟨run, -⟩ | ⟨fd', -, run⟩
    · exact .seq_run run (.done here.same)
    · have stays := setFd_stays here p (Function.update (k.proc p).ofile fd' (some f))
      exact .seq_run run (.seq (filedup_stays stays.order) fun _ k' after => .done (stays.trans after))

theorem sys_read_stays (here : InOrder limit sb watch k) (fd : Fd) (dst : CopyOut) (n : Nat) :
    Meets (sys_read sb p fd dst n).run k Awake fun _ k' => Stays limit sb watch k k' := by
  refine .seq_run (a := (k.proc p).ofile fd) rfl ?_
  cases (k.proc p).ofile fd with
  | none => exact .done here.same
  | some f => exact fileread_stays here dst n

theorem sys_write_stays (here : InOrder limit sb watch k) {fd : Fd} {src : CopyIn} {n : Nat}
    (admits : ∀ f, (k.proc p).ofile fd = some f → (k.file f).writable = true → (k.file f).type = .inode →
      Admits limit (diskType sb k.fs (k.file f).ip) (k.file f).off n) :
    Meets (sys_write sb p fd src n).run k Awake fun _ k' => Stays limit sb watch k k' := by
  refine .seq_run (a := (k.proc p).ofile fd) rfl ?_
  cases isFile : (k.proc p).ofile fd with
  | none => exact .done here.same
  | some f => exact filewrite_stays here (admits f isFile)

theorem sys_close_stays (here : InOrder limit sb watch k) (fd : Fd) :
    Meets (sys_close sb p fd).run k Awake fun _ k' => Stays limit sb watch k k' := by
  refine .seq_run (a := (k.proc p).ofile fd) rfl ?_
  cases (k.proc p).ofile fd with
  | none => exact .done here.same
  | some f =>
    have stays := setFd_stays here p (Function.update (k.proc p).ofile fd none)
    exact .seq_run rfl (.seq (fileclose_stays stays.order) fun _ k' after => .done (stays.trans after))

/-- What `fork` and `exit` leave. -/
structure Served (limit : Nat) (sb : Superblock) (watch : FileIx → Prop) (k k' : Kernel) : Prop where
  order : InOrder limit sb watch k'
  modes : ∀ f, (k'.file f).writable = (k.file f).writable

theorem fork_served (here : InOrder limit sb watch k) (alive : (k.proc p).used = true) (np : Pid) :
    Meets (fork p np).run k Awake fun _ k' => Served limit sb watch k k' := by
  refine .seq_run (a := k.proc np) rfl ?_
  by_cases used : (k.proc np).used = true
  · rw [if_pos used]
    exact .done ⟨here, fun _ => rfl⟩
  · rw [if_neg used]
    refine .seq_run (a := k.proc p) rfl ?_
    refine .seq (Meets.forM here.same fun fd k₁ stays => ?_) fun _ k₁ stays => ?_
    · cases (k.proc p).ofile fd with
      | none => exact .of_ok rfl (stays.trans (setFd_stays stays.order _ _))
      | some f =>
        exact .seq (filedup_stays stays.order) fun _ k₂ dup =>
          .of_ok rfl ((stays.trans dup).trans (setFd_stays dup.order _ _))
    · -- the new process shares the directory of its parent
      have cwds : k₁.cwds = k.cwds := cwds_eq stays.dirs
      have member : (k.proc p).cwd ∈ k₁.cwds := cwds ▸ cwd_mem alive
      refine onFs₁_seq (stays.order.books.idup member) fun cwd fs₁ dup => ?_
      obtain ⟨rfl, dup, -⟩ := dup
      refine .seq_run rfl (.done ⟨⟨dup.perm ?_ (List.Perm.refl _), stays.order.closed⟩, stays.modes⟩)
      have child : (k₁.proc np).dir = none := by
        rw [stays.dirs np]
        exact if_neg used
      have before := cwds_perm k₁ np
      rw [child] at before
      exact (before.cons _).trans (cwds_setProc { k₁.proc np with used := true, cwd := (k.proc p).cwd }).symm

theorem exit_served (here : InOrder limit sb watch k) (alive : (k.proc p).used = true) :
    Meets (exit sb p).run k Awake fun _ k' => Served limit sb watch k k' := by
  refine .seq (Meets.forM here.same fun fd k₁ stays => ?_) fun _ k₁ stays => ?_
  · refine .seq_run (a := (k₁.proc p).ofile fd) rfl ?_
    cases (k₁.proc p).ofile fd with
    | none => exact .done stays
    | some f =>
      exact .seq (fileclose_stays stays.order) fun _ k₂ closed =>
        .of_ok rfl ((stays.trans closed).trans (setFd_stays closed.order _ _))
  · have dir : (k₁.proc p).dir = some (k.proc p).cwd := by
      rw [stays.dirs p]
      exact if_pos alive
    have alive' : (k₁.proc p).used = true := by
      by_contra dead
      rw [Proc.dir, if_neg dead] at dir
      cases dir
    refine .seq_run (a := (k₁.proc p).cwd) rfl (during_begin ?_)
    have before := cwds_perm k₁ p
    rw [Proc.dir, if_pos alive'] at before
    have books := stays.order.books.perm before (List.Perm.refl _)
    refine during_seq (books.iput fun isLocked => absurd isLocked List.not_mem_nil) fun _ fs₁ after => ?_
    refine .seq_run rfl (.seq_run rfl (.done ⟨⟨after.1.perm ?_ (List.Perm.refl _), stays.order.closed⟩,
      stays.modes⟩))
    exact (cwds_setProc { k₁.proc p with used := false }).symm

end Files

/-! ### System calls -/

/-- A system call with its arguments. -/
inductive Syscall where
  | sys_open (locals : Locals) (omode : UInt32) (path : Option (List UInt8))
  | sys_link (locals : Locals) (old new : Option (List UInt8))
  | sys_unlink (locals : Locals) (path : Option (List UInt8))
  | sys_mkdir (locals : Locals) (path : Option (List UInt8))
  | sys_mknod (locals : Locals) (major minor : Int16) (path : Option (List UInt8))
  | sys_symlink (locals : Locals) (target path : Option (List UInt8))
  | sys_chdir (locals : Locals) (path : Option (List UInt8))
  | sys_dup (fd : Fd)
  | sys_read (fd : Fd) (dst : CopyOut) (n : Nat)
  | sys_write (fd : Fd) (src : CopyIn) (n : Nat)
  | sys_close (fd : Fd)
  | fork (np : Pid)
  | exit

/-- The calls on names. -/
def Syscall.onNames : Syscall → Bool
  | .sys_open _ _ _ | .sys_link _ _ _ | .sys_unlink _ _ | .sys_mkdir _ _ | .sys_mknod _ _ _ _
  | .sys_symlink _ _ _ | .sys_chdir _ _ => true
  | _ => false

def Syscall.script (sb : Superblock) (O_NOFOLLOW : UInt32) (p : Pid) : Syscall → Sys Int
  | .sys_open locals omode path => Namespace.sys_open sb O_NOFOLLOW p locals omode path
  | .sys_link locals old new => Namespace.sys_link sb p locals old new
  | .sys_unlink locals path => Namespace.sys_unlink sb p locals path
  | .sys_mkdir locals path => Namespace.sys_mkdir sb p locals path
  | .sys_mknod locals major minor path => Namespace.sys_mknod sb p locals major minor path
  | .sys_symlink locals target path => Namespace.sys_symlink sb p locals target path
  | .sys_chdir locals path => Namespace.sys_chdir sb p locals path
  | .sys_dup fd => Namespace.sys_dup p fd
  | .sys_read fd dst n => Namespace.sys_read sb p fd dst n
  | .sys_write fd src n => Namespace.sys_write sb p fd src n
  | .sys_close fd => Namespace.sys_close sb p fd
  | .fork np => Namespace.fork p np
  | .exit => Namespace.exit sb p

/-- No write of the user reaches a directory. -/
def Syscall.SparesDirectories (sb : Superblock) (k : Kernel) (p : Pid) : Syscall → Prop
  | .sys_write fd _ _ => ∀ f, (k.proc p).ofile fd = some f → (k.file f).writable = true →
    (k.file f).type = .inode → diskType sb k.fs (k.file f).ip ≠ T_DIR
  | _ => True

/-- The user writes and links only what the bound on targets admits. -/
def Syscall.Admitted (limit : Nat) (sb : Superblock) (k : Kernel) (p : Pid) : Syscall → Prop
  | .sys_write fd _ n => ∀ f, (k.proc p).ofile fd = some f → (k.file f).writable = true →
    (k.file f).type = .inode → Admits limit (diskType sb k.fs (k.file f).ip) (k.file f).off n
  | .sys_symlink _ target _ => ∀ bytes, target = some bytes →
    bytes.length ≤ limit ∧ bytes.length < MAXPATH ∨ MAXFILE * BSIZE ≤ limit
  | _ => True

/-- A process makes a call, which returns. -/
def Serves (sb : Superblock) (O_NOFOLLOW : UInt32) (k : Kernel) (request : Pid × Syscall) (k' : Kernel) :
    Prop :=
  (k.proc request.1).used = true ∧
    ∃ r, (request.2.script sb O_NOFOLLOW request.1).run k = .ok (r, k')

/-- A kernel between two calls, on a well-formed image. -/
structure Orderly (sb : Superblock) (k : Kernel) : Prop where
  order : InOrder (MAXFILE * BSIZE) sb (fun _ => False) k
  root : ROOTINO < sb.ninodes
  width : sb.ninodes ≤ 2 ^ 16

section Runs

variable {limit : Nat} {sb : Superblock} {watch : FileIx → Prop} {O_NOFOLLOW : UInt32} {k k' : Kernel}
  {p : Pid} {call : Syscall}

theorem spares_of_onNames (names : call.onNames = true) : call.SparesDirectories sb k p := by
  cases call with
  | sys_write fd src n => exact absurd names Bool.false_ne_true
  | _ => exact trivial

/-- Without a bound on targets, only directories are to be spared. -/
theorem admitted_of_spares (spares : call.SparesDirectories sb k p) :
    call.Admitted (MAXFILE * BSIZE) sb k p := by
  cases call with
  | sys_write fd src n =>
    exact fun f isFile writable isInode => ⟨spares f isFile writable isInode, fun _ => Or.inl le_rfl⟩
  | sys_symlink locals target path => exact fun _ _ => Or.inr le_rfl
  | _ => exact trivial

/-- A call on names: no lock is waited for, and what it took is given back, or kept in a new file. -/
theorem onNames_leaves (root : ROOTINO < sb.ninodes) (width : sb.ninodes ≤ 2 ^ 16)
    (here : InOrder limit sb watch k) (alive : (k.proc p).used = true)
    (admitted : call.Admitted limit sb k p) (names : call.onNames = true) :
    Meets (call.script sb O_NOFOLLOW p).run k Awake fun _ k' => Balances limit sb watch k k' ∨
      ∃ locals omode path i type f, call = .sys_open locals omode path ∧
        Opened limit sb watch k omode i type f k' := by
  cases call with
  | sys_open locals omode path =>
    refine (sys_open_balances root width here alive O_NOFOLLOW omode locals path).mono fun _ k' done =>
      done.imp id fun opened => ?_
    obtain ⟨i, type, f, opened⟩ := opened
    exact ⟨locals, omode, path, i, type, f, rfl, opened⟩
  | sys_link locals old new =>
    exact (sys_link_balances root width here alive locals old new).mono fun _ _ => Or.inl
  | sys_unlink locals path =>
    exact (sys_unlink_balances root here alive locals path).mono fun _ _ => Or.inl
  | sys_mkdir locals path =>
    exact (sys_mkdir_balances root width here alive locals path).mono fun _ _ => Or.inl
  | sys_mknod locals major minor path =>
    exact (sys_mknod_balances root width here alive locals major minor path).mono fun _ _ => Or.inl
  | sys_symlink locals target path =>
    exact (sys_symlink_balances root width here alive locals target path admitted).mono fun _ _ => Or.inl
  | sys_chdir locals path =>
    exact (sys_chdir_balances root here alive locals path).mono fun _ _ => Or.inl
  | _ => exact absurd names Bool.false_ne_true

/-- Every call leaves the kernel in order, but for the file that it may open. -/
theorem script_leaves (root : ROOTINO < sb.ninodes) (width : sb.ninodes ≤ 2 ^ 16)
    (here : InOrder limit sb watch k) (alive : (k.proc p).used = true)
    (admitted : call.Admitted limit sb k p) :
    Meets (call.script sb O_NOFOLLOW p).run k Awake fun _ k' => Served limit sb watch k k' ∨
      ∃ locals omode path i type f, call = .sys_open locals omode path ∧
        Opened limit sb watch k omode i type f k' := by
  have stay : ∀ {k'}, Stays limit sb watch k k' → Served limit sb watch k k' ∨
      ∃ locals omode path i type f, call = .sys_open locals omode path ∧
        Opened limit sb watch k omode i type f k' :=
    fun after => Or.inl ⟨after.order, after.modes⟩
  by_cases names : call.onNames = true
  · exact (onNames_leaves root width here alive admitted names).mono fun _ k' done =>
      done.imp (fun after => ⟨after.order, after.modes⟩) id
  · cases call with
    | sys_dup fd => exact (sys_dup_stays here fd).mono fun _ _ => stay
    | sys_read fd dst n => exact (sys_read_stays here fd dst n).mono fun _ _ => stay
    | sys_write fd src n => exact (sys_write_stays here admitted).mono fun _ _ => stay
    | sys_close fd => exact (sys_close_stays here fd).mono fun _ _ => stay
    | fork np => exact (fork_served here alive np).mono fun _ _ => Or.inl
    | exit => exact (exit_served here alive).mono fun _ _ => Or.inl
    | _ => exact absurd rfl names

/-- Between calls, without files to watch. -/
theorem script_inOrder (root : ROOTINO < sb.ninodes) (width : sb.ninodes ≤ 2 ^ 16)
    (here : InOrder limit sb (fun _ => False) k) (alive : (k.proc p).used = true)
    (admitted : call.Admitted limit sb k p) :
    Meets (call.script sb O_NOFOLLOW p).run k Awake fun _ k' => InOrder limit sb (fun _ => False) k' := by
  refine (script_leaves root width here alive admitted).mono fun _ k' done => ?_
  rcases done with served | ⟨locals, omode, path, i, type, f, -, opened⟩
  · exact served.order
  · exact opened.order.fewer fun _ none => none.elim

theorem serves_orderly (here : Orderly sb k) (spares : call.SparesDirectories sb k p)
    (step : Serves sb O_NOFOLLOW k (p, call) k') : Orderly sb k' := by
  obtain ⟨alive, r, run⟩ := step
  exact ⟨(script_inOrder here.root here.width here.order alive (admitted_of_spares spares)).ends r k' run,
    here.root, here.width⟩

/-- **Locks, references and transactions balance.** In every run of system calls, by any processes, in
which no user write reaches a directory, a call on names never waits for a lock, and so never for one
that it has itself. When it returns, every inode is unlocked, `end_op` was called as often as `begin_op`,
and every reference count is again the number of current directories and of open files that point to the
inode. -/
theorem names_balance {k₀ : Kernel} {trace : List (Pid × Syscall)} (start : Orderly sb k₀)
    (run : Run (fun k request k' => Serves sb O_NOFOLLOW k request k' ∧
      request.2.SparesDirectories sb k request.1) k₀ trace k)
    (alive : (k.proc p).used = true) (names : call.onNames = true) :
    (call.script sb O_NOFOLLOW p).run k ≠ .error .asleep ∧
      ∀ r k', (call.script sb O_NOFOLLOW p).run k = .ok (r, k') →
        (∀ i, (k'.fs.inode i).lock = false) ∧
        (k'.ops = k.ops ∨ k'.ops = k.ops ++ [.begin_op, .end_op]) ∧
        ∀ i, (k'.fs.inode i).ref = k'.cwds.count i + k'.opens.count i := by
  have here : Orderly sb k := run.invariant
    (fun _ _ _ here step => serves_orderly here step.2 step.1) start
  have leaves : Meets (call.script sb O_NOFOLLOW p).run k Awake _ :=
    onNames_leaves here.root here.width here.order alive (admitted_of_spares (spares_of_onNames names)) names
  refine ⟨fun asleep => leaves.halts _ asleep rfl, fun r k' ends => ?_⟩
  have done : InOrder (MAXFILE * BSIZE) sb (fun _ => False) k' ∧
      (k'.ops = k.ops ∨ k'.ops = k.ops ++ [.begin_op, .end_op]) := by
    rcases leaves.ends r k' ends with balances | ⟨locals, omode, path, i, type, f, -, opened⟩
    · exact ⟨balances.order, balances.ops⟩
    · exact ⟨opened.order.fewer fun _ none => none.elim, Or.inr opened.ops⟩
  obtain ⟨order, ops⟩ := done
  refine ⟨fun i => order.books.unlocked List.not_mem_nil, ops, fun i => ?_⟩
  rw [order.books.exact i, add_comm]
  rfl

end Runs

/-! ### A small image -/

/-- A file system of which everything is known is in order. -/
theorem At.inOrder {sb : Superblock} {uses : Ip → Int} {name : Ip → Nat} {node : Nat → Option Node}
    {k : Kernel} (here : At sb uses ⟨[], [], []⟩ name node k.fs)
    (counts : ∀ i, uses i = k.cwds.count i + k.opens.count i)
    (closed : ∀ f, (k.file f).ref < 1 → (k.file f).type.hasInode = false) :
    InOrder (MAXFILE * BSIZE) sb (fun _ => False) k := by
  have known : ∀ {n}, InUse sb (dinode sb k.fs.disk) n →
      NodeOk sb n (nodeOf (dinode sb k.fs.disk n) (content sb k.fs.disk n)) := fun inUse =>
    here.ok (here.nodes _ ▸ nodeAt_of_inUse inUse)
  have refs : ∀ i, (k.fs.inode i).ref = k.opens.count i + k.cwds.count i := fun i => by
    rw [here.refs i, counts i, List.count_nil]
    omega
  refine ⟨⟨⟨here.sound, ⟨here.bounded, fun inUse isDir => ?_⟩, fun i => ?_, here.locked, List.nodup_nil,
    fun _ member => absurd member List.not_mem_nil⟩, refs, fun n inUse => ?_, fun i none => ?_⟩, closed⟩
  · exact ⟨((known inUse).dir isDir).whole, ((known inUse).dir isDir).inside⟩
  · rw [refs]
    omega
  · refine ⟨fun isDir k c isEntry => ?_, fun _ => (known inUse).small⟩
    by_contra other
    exact ((known inUse).dir isDir).apart isEntry (fun same => other (Or.inl same))
      (fun same => other (Or.inr same)) rfl
  · exact none.elim fun _ both => both.1.elim

theorem orderly_rootKernel : Orderly rootSuperblock rootKernel where
  order := by
    refine rootKernel_at.inOrder (fun i => ?_) fun _ _ => rfl
    have cwds : rootKernel.cwds = [firstIp] := by decide +kernel
    have opens : rootKernel.opens = [] := by decide +kernel
    rw [cwds, opens, List.count_nil]
    by_cases first : i = firstIp
    · rw [first, if_pos rfl]
      rfl
    · rw [if_neg first, List.count_eq_zero_of_not_mem fun member => first (List.mem_singleton.mp member)]
      rfl
  root := by decide
  width := by decide

/-- A device is made in the root directory, and opened. -/
theorem names_balance_small : ∃ k k', Run (fun k request k' => Serves rootSuperblock 0x800 k request k' ∧
      request.2.SparesDirectories rootSuperblock k request.1) rootKernel
      [(⟨0, by decide⟩, .sys_mknod ⟨fun _ => 0, []⟩ 1 1 (some [97]))] k ∧
    ((Syscall.sys_open ⟨fun _ => 0, []⟩ O_RDWR (some [97])).script rootSuperblock 0x800
      ⟨0, by decide⟩).run k = .ok (0, k') ∧
    (∀ i, (k'.fs.inode i).lock = false) ∧ (k'.ops = k.ops ∨ k'.ops = k.ops ++ [.begin_op, .end_op]) ∧
    (∀ i, (k'.fs.inode i).ref = k'.cwds.count i + k'.opens.count i) ∧ k'.opens.length = 1 := by
  have evaluated : ((sys_mknod rootSuperblock ⟨0, by decide⟩ ⟨fun _ => 0, []⟩ 1 1 (some [97])).run
      rootKernel).toOption.any (fun made => made.1 == 0 && (made.2.proc ⟨0, by decide⟩).used &&
        ((sys_open rootSuperblock 0x800 ⟨0, by decide⟩ ⟨fun _ => 0, []⟩ O_RDWR (some [97])).run
          made.2).toOption.any fun opened => opened.1 == 0 && opened.2.opens.length == 1) = true := by
    decide +kernel
  obtain ⟨r, k, made, checks⟩ := exists_of_any evaluated
  simp only [Bool.and_eq_true, beq_iff_eq] at checks
  obtain ⟨⟨rfl, alive⟩, opens⟩ := checks
  obtain ⟨r, k', opened, checks⟩ := exists_of_any opens
  simp only [Bool.and_eq_true, beq_iff_eq] at checks
  obtain ⟨rfl, one⟩ := checks
  have step : Serves rootSuperblock 0x800 rootKernel
      (⟨0, by decide⟩, .sys_mknod ⟨fun _ => 0, []⟩ 1 1 (some [97])) k := ⟨by decide, 0, made⟩
  have run : Run (fun k request k' => Serves rootSuperblock 0x800 k request k' ∧
      request.2.SparesDirectories rootSuperblock k request.1) rootKernel _ k :=
    .cons ⟨step, trivial⟩ (.nil k)
  obtain ⟨locks, ops, refs⟩ := (names_balance orderly_rootKernel run alive
    (show (Syscall.sys_open ⟨fun _ => 0, []⟩ O_RDWR (some [97])).onNames = true from rfl)).2 0 k' opened
  exact ⟨k, k', run, opened, locks, ops, refs, one⟩

end Csc3150.Namespace
