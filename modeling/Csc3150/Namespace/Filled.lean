/-
**Files have no holes, over runs of the calls that change them.**

* `Operation`, `performs_ok` — one call of a caller that keeps its ledger;
* `files_have_no_holes` — in every state reached, every block of a file is mapped, `readi` is pure, and
  `bmap` does not panic.
-/

import Csc3150.FileSystem.PartialWrite
import Csc3150.FileSystem.Reading
import Csc3150.Namespace.Ledger
import Csc3150.Namespace.Symlink

namespace Csc3150.Namespace

open FileSystem Program Transition

/-! ### `sys_symlink` -/

section Symlink

variable {sb : Superblock} {held : List Ip} {k : Kernel} {α : Type} {post : α → Fs → Prop}

/-- A script of the file system, performed in a system call. -/
theorem ensures_onFs {x : FsScript α} (first : Ensures x.run k.fs post) :
    Ensures (onFs x).run k fun a k' => post a k'.fs := by
  have meets : Meets x.run k.fs (fun _ => True) post := ⟨first, fun _ _ => trivial⟩
  exact (meets_onFs meets).ends

theorem ensures_onFs₁ {x : FsProg α} (first : Ensures x k.fs post) :
    Ensures (onFs₁ x).run k fun a k' => post a k'.fs :=
  ensures_onFs (.atomic first)

/-- The target is stored in full before the size is cut to leave the terminator out. -/
theorem storeTarget_held {i : Ip} (here : Held sb (i :: held) [i] k.fs)
    (file : (k.fs.inode i).type ≠ T_DIR) (target : List UInt8) :
    Ensures (storeTarget sb target i).run k fun _ k' => Held sb held [] k'.fs := by
  refine .seq (ensures_onFs₁ (here.writei List.mem_cons_self
    fun isDir => absurd isDir file)) fun r k₁ wrote => ?_
  obtain ⟨wrote, sameType, stored⟩ := wrote
  by_cases short : r ≠ (target.length + 1 : Nat)
  · rw [if_pos short]
    exact .seq (ensures_onFs wrote.iunlockput) fun _ k₂ after => .seq_run rfl (.done after)
  · rw [if_neg short]
    have within : target.length ≤ (k₁.fs.inode i).size := by omega
    have notDir : (k₁.fs.inode i).type ≠ T_DIR := sameType ▸ file
    have updated : Ensures (Fs.iupdate sb i) (k₁.fs.setInode i { k₁.fs.inode i with
        toDinode := { (k₁.fs.inode i).toDinode with size := target.length } }) _ :=
      wrote.iupdate List.mem_cons_self rfl rfl within fun isDir => absurd isDir notDir
    refine .seq_run rfl (.seq (ensures_onFs₁ (k := { k₁ with fs := _ }) updated) fun _ k₂ last => ?_)
    exact .seq (ensures_onFs last.1.iunlockput) fun _ k₃ after => .seq_run rfl (.done after)

theorem sys_symlink_held (here : Held sb held [] k.fs) (root : ROOTINO < sb.ninodes)
    (width : sb.ninodes ≤ 2 ^ 16) {p : Pid} (member : (k.proc p).cwd ∈ held) (locals : Locals)
    (target path : Option (List UInt8)) :
    Ensures (sys_symlink sb p locals target path).run k fun _ k' => Held sb held [] k'.fs := by
  cases target with
  | none => exact .seq_run rfl (.seq_run rfl (.done here))
  | some target =>
    cases path with
    | none => exact .seq_run rfl (.seq_run rfl (.done here))
    | some path =>
      rw [sys_symlink_eq]
      refine .seq_run rfl (.seq_run (a := (k.proc p).cwd) rfl ?_)
      refine .seq (ensures_onFs (k := { k with ops := _ }) (here.create root width member path))
        fun r k₁ created => ?_
      rcases created with ⟨rfl, after⟩ | ⟨i, rfl, locked, file⟩
      · exact .seq_run rfl (.done after)
      · exact storeTarget_held locked (file (by decide)) target

end Symlink

/-! ### Runs -/

/-- A kernel with the references and locks of the caller. -/
structure Session where
  kernel : Kernel
  held : List Ip
  locks : List Ip

/-- A call of the caller. -/
inductive Operation where
  | iget (inum : Nat)
  | idup (ip : Ip)
  | ilock (ip : Ip)
  | iunlock (ip : Ip)
  | iput (ip : Ip)
  | readi (ip : Ip) (dst : CopyOut) (off n : UInt32)
  | writei (ip : Ip) (src : CopyIn) (off n : UInt32)
  | itrunc (ip : Ip)
  | dirlink (dp : Ip) (name : Name) (inum : Nat)
  | create (cwd : Ip) (path : List UInt8) (type major minor : Int16) (name : Name)
  | sys_symlink (p : Pid) (locals : Locals) (target path : Option (List UInt8))

/-- What the calls ask of the caller: inode numbers of the image, references to what is passed on or
dropped, the lock of an inode whose content is used, no lock when a path is followed, and that the bytes
of a directory stay entries that name inodes of the image. -/
def Operation.Legal (sb : Superblock) (s : Session) : Operation → Prop
  | .iget inum => 0 < inum ∧ inum < sb.ninodes
  | .idup ip | .ilock ip => ip ∈ s.held
  | .iunlock ip => ip ∈ s.locks
  | .iput ip => ip ∈ s.held ∧ (ip ∈ s.locks → 1 < s.held.count ip)
  | .readi ip _ _ _ | .itrunc ip => ip ∈ s.locks
  | .writei ip src off n => ip ∈ s.locks ∧ KeepsDir sb s.kernel.fs ip src off n
  | .dirlink dp _ inum => dp ∈ s.locks ∧ 0 < inum ∧ inum < sb.ninodes
  | .create cwd _ _ _ _ _ => cwd ∈ s.held ∧ s.locks = []
  | .sys_symlink p _ _ _ => (s.kernel.proc p).cwd ∈ s.held ∧ s.locks = []

/-- Perform a call; the references and locks that the caller has then. -/
def Operation.script (sb : Superblock) (s : Session) : Operation → Sys (List Ip × List Ip)
  | .iget inum => do
    let ip ← onFs₁ (FileSystem.iget ROOTDEV inum)
    return (ip :: s.held, s.locks)
  | .idup ip => do
    let ip ← onFs₁ (FileSystem.idup ip)
    return (ip :: s.held, s.locks)
  | .ilock ip => do
    onFs₁ (FileSystem.ilock sb ip)
    return (s.held, ip :: s.locks)
  | .iunlock ip => do
    onFs₁ (FileSystem.iunlock ip)
    return (s.held, s.locks.erase ip)
  | .iput ip => do
    onFs (Namespace.iput sb ip)
    return (s.held.erase ip, s.locks)
  | .readi ip dst off n => do
    let _ ← onFs₁ (Fs.readi sb ip dst off n)
    return (s.held, s.locks)
  | .writei ip src off n => do
    let _ ← onFs₁ (Fs.writei sb ip src off n)
    return (s.held, s.locks)
  | .itrunc ip => do
    onFs₁ (Fs.itrunc sb ip)
    return (s.held, s.locks)
  | .dirlink dp name inum => do
    let _ ← onFs (Namespace.dirlink sb dp name inum)
    return (s.held, s.locks)
  | .create cwd path type major minor name => do
    let ip ← onFs (Namespace.create sb cwd path type major minor name)
    return (ip.toList ++ s.held, ip.toList ++ s.locks)
  | .sys_symlink p locals target path => do
    let _ ← Namespace.sys_symlink sb p locals target path
    return (s.held, s.locks)

/-- A legal call that returns. -/
def Performs (sb : Superblock) (s : Session) (op : Operation) (s' : Session) : Prop :=
  op.Legal sb s ∧ (op.script sb s).run s.kernel = .ok ((s'.held, s'.locks), s'.kernel)

/-- A well-formed image: blocks are owned exactly, files have no holes and fit the block map, directories
have whole entries, and the inodes can be named in a directory. -/
structure WellFormedImage (sb : Superblock) (disk : Disk) : Prop where
  image : Image sb disk
  formed : Formed sb disk
  root : ROOTINO < sb.ninodes
  width : sb.ninodes ≤ 2 ^ 16

/-- The ledger of the caller holds. -/
def Session.Ok (sb : Superblock) (s : Session) : Prop := Held sb s.held s.locks s.kernel.fs

section Runs

variable {sb : Superblock} {s s' : Session} {op : Operation}

/-- One call keeps the ledger. -/
theorem performs_ok (root : ROOTINO < sb.ninodes) (width : sb.ninodes ≤ 2 ^ 16) (here : s.Ok sb)
    (step : Performs sb s op s') : s'.Ok sb := by
  obtain ⟨legal, run⟩ := step
  have held : Held sb s.held s.locks s.kernel.fs := here
  suffices ensures : Ensures (op.script sb s).run s.kernel fun ledger k =>
      Held sb ledger.1 ledger.2 k.fs from ensures _ _ run
  cases op with
  | iget inum =>
    exact .seq (ensures_onFs₁ (held.iget legal.1 legal.2)) fun _ _ after => .done after
  | idup i =>
    refine .seq (ensures_onFs₁ (held.idup legal)) fun _ _ after => ?_
    obtain ⟨rfl, after⟩ := after
    exact .done after
  | ilock i => exact .seq (ensures_onFs₁ (held.ilock legal)) fun _ _ after => .done after.2.1
  | iunlock i =>
    have first := held.perm (List.Perm.refl _) (List.perm_cons_erase legal)
    exact .seq (ensures_onFs₁ first.iunlock) fun _ _ after => .done after.2
  | iput i =>
    have first := held.perm (List.perm_cons_erase legal.1) (List.Perm.refl _)
    refine .seq (ensures_onFs (first.iput fun isLocked => ?_)) fun _ _ after => .done after
    have more := legal.2 isLocked
    rw [← List.count_pos_iff, List.count_erase_self]
    omega
  | readi i dst off n =>
    have keeps : Ensures (Fs.readi sb i dst off n) s.kernel.fs fun _ fs' =>
        Held sb s.held s.locks fs' := by
      intro r fs' read
      rcases Fs.readi_spec held.sound ((held.locked i).mpr legal) dst off n with
        ⟨error, -⟩ | ⟨r', bytes, ok, -⟩
      · rw [error] at read
        cases read
      · rw [ok] at read
        cases read
        exact held
    exact .seq (ensures_onFs₁ keeps) fun _ _ after => .done after
  | writei i src off n =>
    exact .seq (ensures_onFs₁ (held.writei legal.1 legal.2)) fun _ _ after => .done after.1
  | itrunc i => exact .seq (ensures_onFs₁ (held.itrunc legal)) fun _ _ after => .done after
  | dirlink dp name inum =>
    exact .seq (ensures_onFs (held.dirlink legal.1 legal.2.1 legal.2.2 width)) fun _ _ after =>
      .done after.1
  | create cwd path type major minor name =>
    rw [legal.2] at held
    refine .seq (ensures_onFs (held.create root width legal.1 path)) fun r k created => ?_
    rcases created with ⟨rfl, after⟩ | ⟨i, rfl, after, -⟩
    · refine .done ?_
      rw [legal.2]
      exact after
    · refine .done ?_
      rw [legal.2]
      exact after
  | sys_symlink p locals target path =>
    rw [legal.2] at held
    refine .seq (sys_symlink_held held root width legal.1 locals target path) fun r k after => ?_
    refine .done ?_
    rw [legal.2]
    exact after

/-- The ledger is empty after boot. -/
theorem boot_ok {disk : Disk} (k : Kernel) (formed : WellFormedImage sb disk) :
    Session.Ok sb ⟨{ k with fs := Fs.boot disk }, [], []⟩ where
  sound := Fs.boot_sound formed.image.layout (blocksExact_iff.mpr formed.image.owned) formed.image.filled
  formed := formed.formed
  refs _ := le_rfl
  locked _ := iff_of_false Bool.false_ne_true List.not_mem_nil
  distinct := List.nodup_nil
  paired _ member := absurd member List.not_mem_nil

end Runs

/-- **Files have no holes.** In every state that the calls reach from a well-formed image, no file is
larger than the block map, and every block below its size is mapped. A read of a locked inode into the
kernel returns what there is to read and changes nothing; no read depends on the allocator; and neither
`readi` nor `writei` stops with a panic. -/
theorem files_have_no_holes {sb : Superblock} {disk : Disk} {k : Kernel} {trace : List Operation}
    {s : Session} (formed : WellFormedImage sb disk)
    (run : Run (Performs sb) ⟨{ k with fs := Fs.boot disk }, [], []⟩ trace s) :
    Bounded sb s.kernel.fs.disk ∧ NoHoles sb s.kernel.fs.disk ∧ ∀ i, i ∈ s.locks →
      (∀ off n, ∃ bytes, Fs.readi sb i (fun _ _ => false) off n s.kernel.fs =
        .ok (((readable (s.kernel.fs.inode i).size off n : Int), bytes), s.kernel.fs)) ∧
      (∀ alloc dst off n, readiWith alloc s.kernel.fs.disk (s.kernel.fs.inode i) dst off n =
        FileSystem.readi sb s.kernel.fs.disk (s.kernel.fs.inode i) dst off n) ∧
      (∀ dst off n, ∃ r, Fs.readi sb i dst off n s.kernel.fs = .ok (r, s.kernel.fs)) ∧
      ∀ src off n, ∃ r fs, Fs.writei sb i src off n s.kernel.fs = .ok (r, fs) := by
  have ok : s.Ok sb := run.invariant
    (fun _ _ _ here step => performs_ok formed.root formed.width here step) (boot_ok k formed)
  have held : Held sb s.held s.locks s.kernel.fs := ok
  refine ⟨held.formed.bounded, held.sound.image.filled, fun i lock => ?_⟩
  have isLocked := (held.locked i).mpr lock
  have small := held.size_le lock
  refine ⟨fun off n => ?_, fun alloc dst off n => ?_, fun dst off n => ?_, fun src off n => ?_⟩
  · rcases Fs.readi_spec held.sound isLocked (fun _ _ => false) off n with
      ⟨-, large⟩ | ⟨r, bytes, ends, ⟨rfl, -⟩ | ⟨-, _, _, fault⟩⟩
    · omega
    · exact ⟨bytes, ends⟩
    · cases fault
  · exact readi_any_allocator held.sound.image (held.cached lock) small alloc dst off n
  · rcases Fs.readi_spec held.sound isLocked dst off n with ⟨-, large⟩ | ⟨r, bytes, ends, -⟩
    · omega
    · exact ⟨_, ends⟩
  · obtain ⟨rejected, accepted⟩ := Fs.writei_spec held.sound isLocked src off n
    by_cases rejects : Rejects (s.kernel.fs.inode i).size off n
    · exact ⟨_, _, rejected rejects⟩
    · obtain ⟨after, ip, tot, hi, ends, -⟩ := accepted rejects
      exact ⟨_, _, ends⟩

/-! ### A small image -/

/-- Is a call on a file within the obligations of the caller? -/
def allowed (sb : Superblock) (s : Session) : Operation → Bool
  | .iget inum => 0 < inum ∧ inum < sb.ninodes
  | .ilock ip => ip ∈ s.held
  | .readi ip _ _ _ => ip ∈ s.locks
  | .writei ip _ _ _ => ip ∈ s.locks ∧ (s.kernel.fs.inode ip).type ≠ T_DIR
  | _ => false

/-- Perform a call on a file, if it is allowed and returns. -/
def perform (sb : Superblock) (s : Session) (op : Operation) : Option Session :=
  if allowed sb s op then ((op.script sb s).run s.kernel).toOption.map fun result =>
    ⟨result.2, result.1.1, result.1.2⟩
  else none

theorem legal_of_allowed {sb : Superblock} {s : Session} {op : Operation}
    (isAllowed : allowed sb s op = true) : op.Legal sb s := by
  cases op with
  | iget inum =>
    have inside : 0 < inum ∧ inum < sb.ninodes := of_decide_eq_true isAllowed
    exact inside
  | ilock ip =>
    have member : ip ∈ s.held := of_decide_eq_true isAllowed
    exact member
  | readi ip dst off n =>
    have member : ip ∈ s.locks := of_decide_eq_true isAllowed
    exact member
  | writei ip src off n =>
    have both : ip ∈ s.locks ∧ (s.kernel.fs.inode ip).type ≠ T_DIR := of_decide_eq_true isAllowed
    exact ⟨both.1, fun isDir => absurd isDir both.2⟩
  | _ => exact absurd isAllowed Bool.false_ne_true

theorem performs_of_perform {sb : Superblock} {s s' : Session} {op : Operation}
    (performed : perform sb s op = some s') : Performs sb s op s' := by
  rw [perform] at performed
  split_ifs at performed with isAllowed
  obtain ⟨result, ends, rfl⟩ := Option.map_eq_some_iff.mp performed
  refine ⟨legal_of_allowed isAllowed, ?_⟩
  cases run : (op.script sb s).run s.kernel with
  | ok value =>
    rw [run] at ends
    exact congrArg _ (Option.some.inj ends)
  | error halt =>
    rw [run] at ends
    cases ends

theorem wellFormed_smallDisk : WellFormedImage smallSuperblock (smallDisk 0) where
  image := image_smallDisk
  formed := by
    refine ⟨bounded_smallDisk, fun {n} inUse isDir => ?_⟩
    rw [inUse_small inUse, dinode_smallDisk (Nat.two_pow_pos 32)] at isDir
    exact absurd isDir (by decide)
  root := by decide
  width := by decide

/-- Three bytes are written and read, the second write with a disk that fills up. -/
theorem files_have_no_holes_small : ∃ s, Run (Performs smallSuperblock)
    ⟨{ rootKernel with fs := Fs.boot (smallDisk 0) }, [], []⟩
    [.iget 1, .ilock firstIp, .writei firstIp (.kernel [7, 8, 9]) 0 3,
      .writei firstIp ⟨fun _ => 1, fun _ _ => none⟩ 3 1023, .readi firstIp (fun _ _ => false) 1 4] s ∧
    NoHoles smallSuperblock s.kernel.fs.disk := by
  have performed : ([.iget 1, .ilock firstIp, .writei firstIp (.kernel [7, 8, 9]) 0 3,
      .writei firstIp ⟨fun _ => 1, fun _ _ => none⟩ 3 1023,
      .readi firstIp (fun _ _ => false) 1 4].foldlM (perform smallSuperblock)
        ⟨{ rootKernel with fs := Fs.boot (smallDisk 0) }, [], []⟩).isSome := by
    decide +kernel
  obtain ⟨s, reached⟩ := Option.isSome_iff_exists.mp performed
  have run := Run.of_foldlM (fun _ _ _ => performs_of_perform) reached
  exact ⟨s, run, (files_have_no_holes wellFormed_smallDisk run).2.1⟩

end Csc3150.Namespace
