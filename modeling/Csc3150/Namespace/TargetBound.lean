/-
**Targets of symbolic links and the buffer that they are read into.**

`sys_symlink` stores a target of less than MAXPATH bytes, and `sys_open` reads as many bytes as the link is
long into a buffer of MAXPATH bytes. In between, a user who opens the link itself with `O_NOFOLLOW` may
write to it.

* `sys_openCut` — `sys_open` with reads that end with the buffer;
* `sys_open_within` — as long as targets fit, there is no difference;
* `targets_fit` — they fit in every run whose writes stay within MAXPATH bytes on links;
* `written_target_overflows` — a write that does not.
-/

import Csc3150.Namespace.Serving
import Csc3150.Namespace.Targets

namespace Csc3150.Namespace

open ByteBuffer FileSystem Outcome Program Transition
open Program.Script (atomic)

/-! ### Reads that end with the buffer -/

section Functions

variable (sb : Superblock)

/-- The loop of `sys_open` with reads that end with the buffer. -/
def followCut (cwd : Ip) (name : Name) (nofollow : Bool) :
    (fuel retry : Nat) → (target : List UInt8) → Ip → Sys (Option (Ip × Nat))
  | 0, retry, _, ip => return some (ip, retry)
  | fuel + 1, retry, target, ip => do
    let i ← onFs₁ (inode ip)
    if i.type = T_SYMLINK ∧ nofollow = false ∧ retry < 10 then
      let (r, bytes) ← onFs₁ (Fs.readi sb ip (fun _ _ => false) 0
        (UInt32.ofNat (min i.size (MAXPATH - 1))))
      if r ≠ i.size then
        onFs (iunlockput sb ip)
        end_op
        return none
      else
        onFs (iunlockput sb ip)
        let target := overwrite target 0 bytes
        match ← onFs (namei sb cwd (cstring target) name) with
        | none =>
          end_op
          return none
        | some ip =>
          onFs₁ (ilock sb ip)
          let i ← onFs₁ (inode ip)
          followCut cwd name nofollow fuel (if i.type = T_SYMLINK then retry + 1 else retry) target ip
    else return some (ip, retry)

/-- `sys_open` with reads that end with the buffer. -/
def sys_openCut (O_NOFOLLOW : UInt32) (p : Pid) (locals : Locals) (omode : UInt32) :
    (path : Option (List UInt8)) → Sys Int
  | none => return -1
  | some path => do
    begin_op
    match ← openStart sb p locals omode path with
    | none => return -1
    | some ip =>
      let cwd ← myCwd p
      match ← followCut sb cwd locals.name (hasFlag omode O_NOFOLLOW) 11 0 locals.target ip with
      | none => return -1
      | some (ip, retry) =>
        if 10 ≤ retry then openFail sb ip
        else
          let i ← onFs₁ (inode ip)
          if i.type = T_DEVICE ∧ (i.major < 0 ∨ NDEV ≤ i.major.toInt) then openFail sb ip
          else openFile sb p omode ip

end Functions

section Within

variable {limit : Nat} {sb : Superblock} {watch : FileIx → Prop} {k : Kernel} {p : Pid} {O_NOFOLLOW : UInt32}

/-- What a script of the file system does inside a call. -/
theorem during_ends {α : Type} {x : FsScript α} {fs : Fs} {a : α} {k' : Kernel} {stops : Halt → Prop}
    {middle : α → Fs → Prop} (first : Meets x.run fs stops middle)
    (run : (onFs x).run (k.during fs) = .ok (a, k')) : ∃ fs', k' = k.during fs' ∧ middle a fs' := by
  rw [run_onFs] at run
  obtain ⟨⟨a', fs'⟩, inner, rest⟩ := Outcome.bind_eq_ok.mp run
  cases rest
  exact ⟨fs', rfl, first.ends _ _ inner⟩

theorem follow_within (root : ROOTINO < sb.ninodes) (fits : limit < MAXPATH) {cwd : Ip}
    (member : cwd ∈ k.cwds) {nm : Name} {nofollow : Bool} : ∀ {fuel retry : Nat} {target : List UInt8}
    {i : Ip} {fs : Fs}, Books sb (k.rest limit watch) (i :: k.cwds) [i] fs →
    (follow sb cwd nm nofollow fuel retry target i).run (k.during fs) =
      (followCut sb cwd nm nofollow fuel retry target i).run (k.during fs) := by
  intro fuel
  induction fuel with
  | zero => exact fun _ => rfl
  | succ fuel ih =>
    intro retry target i fs locked
    rw [follow, followCut, Script.run_bind, Script.run_bind, bind_run (run_inode i _),
      bind_run (run_inode i _)]
    by_cases stays : ((k.during fs).fs.inode i).type = T_SYMLINK ∧ nofollow = false ∧ retry < 10
    · rw [if_pos stays, if_pos stays]
      have cached := locked.ledger.cached (i := i) List.mem_cons_self
      have short : (fs.inode i).size ≤ limit := by
        have short := (locked.tidy _ cached.inUse).short
          ((locked.diskType_eq List.mem_cons_self).trans stays.1)
        rwa [content_length, ← cached.same] at short
      have whole : min ((k.during fs).fs.inode i).size (MAXPATH - 1) = ((k.during fs).fs.inode i).size :=
        min_eq_left (Nat.le_sub_one_of_lt (lt_of_le_of_lt short fits))
      rw [whole]
      refine Script.run_bind_congr fun result k₁ read => ?_
      obtain ⟨fs₁, rfl, same⟩ := during_ends (.atomic (locked.readi List.mem_cons_self _ _ _)) read
      subst same
      dsimp only
      by_cases part : result.1 ≠ ((k.during fs₁).fs.inode i).size
      · rw [if_pos part, if_pos part]
      · rw [if_neg part, if_neg part]
        refine Script.run_bind_congr fun _ k₂ put => ?_
        obtain ⟨fs₂, rfl, dropped, -⟩ := during_ends locked.iunlockput put
        refine Script.run_bind_congr fun r k₃ found => ?_
        obtain ⟨fs₃, rfl, held⟩ := during_ends (dropped.namei root member _) found
        cases r with
        | none => rfl
        | some j =>
          refine Script.run_bind_congr fun _ k₄ lock => ?_
          obtain ⟨fs₄, rfl, next, -⟩ := during_ends
            (.atomic (held.ilock List.mem_cons_self List.not_mem_nil)) lock
          refine Script.run_bind_congr fun d k₅ last => ?_
          cases last
          exact ih next
    · rw [if_neg stays, if_neg stays]

/-- As long as targets fit the buffer, `sys_open` reads nothing past its end. -/
theorem sys_open_within (root : ROOTINO < sb.ninodes) (width : sb.ninodes ≤ 2 ^ 16) (fits : limit < MAXPATH)
    (here : InOrder limit sb watch k) (alive : (k.proc p).used = true) (locals : Locals) (omode : UInt32)
    (path : Option (List UInt8)) : (sys_open sb O_NOFOLLOW p locals omode path).run k =
      (sys_openCut sb O_NOFOLLOW p locals omode path).run k := by
  cases path with
  | none => rfl
  | some path =>
    rw [sys_open, sys_openCut]
    refine Script.run_bind_congr fun _ k₁ begun => ?_
    cases begun
    refine Script.run_bind_congr fun r k₂ started => ?_
    have proceeds := (openStart_balances root width here alive locals omode path).ends r k₂ started
    rcases proceeds with ⟨rfl, -⟩ | ⟨i, fs, rfl, rfl, locked⟩
    · rfl
    · refine Script.run_bind_congr fun cwd k₃ isCwd => ?_
      cases isCwd
      have member : ((k.during fs).proc p).cwd ∈ k.cwds := cwd_mem alive
      rw [Script.run_bind, Script.run_bind, bind_apply, bind_apply]
      exact congrArg (· >>= _) (follow_within root fits member locked)

end Within

/-! ### Runs -/

/-- `argstr` lets a target through. -/
def Syscall.Fetched : Syscall → Prop
  | .sys_symlink _ target _ => ∀ bytes, target = some bytes → bytes.length < MAXPATH
  | _ => True

/-- A write to an inode is to no directory, and to a symbolic link only within the buffer. -/
def Syscall.KeepsTargets (sb : Superblock) (k : Kernel) (p : Pid) : Syscall → Prop
  | .sys_write fd _ n => ∀ f, (k.proc p).ofile fd = some f → (k.file f).writable = true →
    (k.file f).type = .inode → diskType sb k.fs (k.file f).ip ≠ T_DIR ∧
      (diskType sb k.fs (k.file f).ip = T_SYMLINK → (k.file f).off.toNat + n < MAXPATH)
  | _ => True

/-- A kernel between two calls, all targets of which fit the buffer. -/
structure Targets (sb : Superblock) (k : Kernel) : Prop where
  order : InOrder (MAXPATH - 1) sb (fun _ => False) k
  root : ROOTINO < sb.ninodes
  width : sb.ninodes ≤ 2 ^ 16

section Runs

variable {sb : Superblock} {O_NOFOLLOW : UInt32} {k k' : Kernel} {p : Pid} {call : Syscall}

theorem admitted_of_keeps (fetched : call.Fetched) (keeps : call.KeepsTargets sb k p) :
    call.Admitted (MAXPATH - 1) sb k p := by
  cases call with
  | sys_write fd src n =>
    intro f isFile writable isInode
    obtain ⟨notDir, within⟩ := keeps f isFile writable isInode
    exact ⟨notDir, fun link => Or.inr (Nat.le_sub_one_of_lt (within link))⟩
  | sys_symlink locals target path =>
    exact fun bytes isTarget => Or.inl ⟨Nat.le_sub_one_of_lt (fetched bytes isTarget), fetched bytes isTarget⟩
  | _ => exact trivial

theorem serves_targets (here : Targets sb k) (fetched : call.Fetched) (keeps : call.KeepsTargets sb k p)
    (step : Serves sb O_NOFOLLOW k (p, call) k') : Targets sb k' := by
  obtain ⟨alive, r, run⟩ := step
  exact ⟨(script_inOrder here.root here.width here.order alive (admitted_of_keeps fetched keeps)).ends r k' run,
    here.root, here.width⟩

/-- The size of a target, on the disk and in the table of inodes. -/
theorem Targets.short (here : Targets sb k) :
    (∀ n, InUse sb (dinode sb k.fs.disk) n → (dinode sb k.fs.disk n).type = T_SYMLINK →
      (dinode sb k.fs.disk n).size < MAXPATH) ∧
    ∀ i, 0 < (k.fs.inode i).ref → (k.fs.inode i).valid = true → (k.fs.inode i).type = T_SYMLINK →
      (k.fs.inode i).size < MAXPATH := by
  have disk : ∀ n, InUse sb (dinode sb k.fs.disk) n → (dinode sb k.fs.disk n).type = T_SYMLINK →
      (dinode sb k.fs.disk n).size < MAXPATH := by
    intro n inUse link
    have short : (content sb k.fs.disk n).length ≤ MAXPATH - 1 := (here.order.books.tidy n inUse).short link
    rw [content_length] at short
    exact Nat.lt_of_le_sub_one (by decide) short
  refine ⟨disk, fun i used valid link => ?_⟩
  have cached := here.order.books.ledger.sound.table.cached used valid
  rw [cached.same] at link ⊢
  exact disk _ cached.inUse link

/-- **Targets fit the buffer** in every run of system calls whose writes go to no directory, and to a
symbolic link only within MAXPATH bytes: no symbolic link is as long as the buffer, and no read of
`sys_open` passes its end. -/
theorem targets_fit {k₀ : Kernel} {trace : List (Pid × Syscall)} (start : Targets sb k₀)
    (run : Run (fun k request k' => Serves sb O_NOFOLLOW k request k' ∧ request.2.Fetched ∧
      request.2.KeepsTargets sb k request.1) k₀ trace k) :
    ((∀ n, InUse sb (dinode sb k.fs.disk) n → (dinode sb k.fs.disk n).type = T_SYMLINK →
      (dinode sb k.fs.disk n).size < MAXPATH) ∧
    ∀ i, 0 < (k.fs.inode i).ref → (k.fs.inode i).valid = true → (k.fs.inode i).type = T_SYMLINK →
      (k.fs.inode i).size < MAXPATH) ∧
    ∀ p locals omode path, (k.proc p).used = true →
      (sys_open sb O_NOFOLLOW p locals omode path).run k =
        (sys_openCut sb O_NOFOLLOW p locals omode path).run k := by
  have here : Targets sb k := run.invariant
    (fun _ _ _ here step => serves_targets here step.2.1 step.2.2 step.1) start
  exact ⟨here.short, fun p locals omode path alive =>
    sys_open_within here.root here.width (by decide) here.order alive locals omode path⟩

end Runs

/-! ### An image with free blocks -/

theorem Books.withRoom {sb : Superblock} {rest : Rest} {held locks : List Ip} {fs : Fs} {size nblocks : Nat}
    (here : Books sb rest held locks fs) (layout : Superblock.WellFormed { sb with size, nblocks })
    (begins : size - nblocks = sb.dataStart) (more : sb.size ≤ size)
    (room : ∀ b, sb.size ≤ b → b < size → marked sb fs.disk b = false) :
    Books { sb with size, nblocks } rest held locks fs := by
  obtain ⟨⟨sound, formed, refs, locked, distinct, paired⟩, exact, tidy, files⟩ := here
  have dirs : Formed { sb with size, nblocks } fs.disk :=
    ⟨formed.bounded, fun inUse isDir => ⟨(formed.dirs inUse isDir).whole, (formed.dirs inUse isDir).inside⟩⟩
  exact ⟨⟨sound_withRoom layout begins more room sound, dirs, refs, locked, distinct, paired⟩, exact, tidy,
    files⟩

/-- Every link of the image is short. -/
theorem InOrder.tighten {limit limit' : Nat} {sb : Superblock} {watch : FileIx → Prop} {k : Kernel}
    (here : InOrder limit sb watch k)
    (short : ∀ n, InUse sb (dinode sb k.fs.disk) n → (dinode sb k.fs.disk n).type = T_SYMLINK →
      (dinode sb k.fs.disk n).size ≤ limit') : InOrder limit' sb watch k := by
  obtain ⟨⟨ledger, exact, tidy, files⟩, closed⟩ := here
  exact ⟨⟨ledger, exact, fun n inUse => ⟨(tidy n inUse).plain, fun link =>
    (content_length sb k.fs.disk n).trans_le (short n inUse link)⟩, files⟩, closed⟩

theorem targets_rootKernel : Targets roomSuperblock rootKernel where
  order := by
    have tight : InOrder (MAXPATH - 1) rootSuperblock (fun _ => False) rootKernel := by
      refine orderly_rootKernel.order.tighten fun n inUse link => ?_
      have isRoot : n = ROOTINO := inUse_rootDisk inUse
      rw [isRoot] at link
      exact absurd (link.symm.trans (congrArg Dinode.type dinode_rootDisk)) (by decide)
    exact ⟨tight.books.withRoom roomSuperblock_wellFormed rfl (by decide) roomSuperblock_free, tight.closed⟩
  root := by decide
  width := by decide

/-- "a", a link to "b". -/
def makeLink : Syscall := .sys_symlink clearLocals (some [98]) (some [97])

theorem makeLink_fetched : makeLink.Fetched := by
  intro bytes isTarget
  cases isTarget
  decide

/-- The open of the link itself, for reading and writing. -/
def openLink : Syscall := .sys_open clearLocals 0x802 (some [97])

/-- A write of slashes to the first descriptor. -/
def writeSlashes (n : Nat) : Syscall := .sys_write ⟨0, by decide⟩ ⟨fun _ => 47, fun _ _ => none⟩ n

/-- Is the first descriptor at the beginning of a link? -/
def AtLink (k : Kernel) : Prop :=
  (k.proc init).used = true ∧ (k.proc init).ofile ⟨0, by decide⟩ = some ⟨0, by decide⟩ ∧
    diskType roomSuperblock k.fs (k.file ⟨0, by decide⟩).ip = T_SYMLINK ∧
      (k.file ⟨0, by decide⟩).off.toNat = 0

instance (k : Kernel) : Decidable (AtLink k) :=
  inferInstanceAs (Decidable (_ ∧ _ ∧ _ ∧ _))

/-- After the first two calls. -/
theorem link_opened : ∃ k₁ k₂, (makeLink.script roomSuperblock 0x800 init).run rootKernel = .ok (0, k₁) ∧
    (k₁.proc init).used = true ∧ (openLink.script roomSuperblock 0x800 init).run k₁ = .ok (0, k₂) ∧
    AtLink k₂ ∧
    (((writeSlashes 3).script roomSuperblock 0x800 init).run k₂).toOption.any
      (fun last => decide (last.1 = 3)) = true ∧
    (((writeSlashes 200).script roomSuperblock 0x800 init).run k₂).toOption.any
      (fun last => decide ((last.2.proc init).used = true) &&
        (decide ((dinode roomSuperblock last.2.fs.disk 2).type = T_SYMLINK) &&
        (decide (MAXPATH ≤ (dinode roomSuperblock last.2.fs.disk 2).size) &&
        (((sys_open roomSuperblock 0x800 init clearLocals O_RDONLY (some [97])).run last.2).toOption.any
          (fun read => decide (read.1 = 1)) &&
        ((sys_openCut roomSuperblock 0x800 init clearLocals O_RDONLY (some [97])).run last.2).toOption.any
          fun read => decide (read.1 = -1))))) = true := by
  have evaluated : ((makeLink.script roomSuperblock 0x800 init).run rootKernel).toOption.any
      (fun first => decide (first.1 = 0) && (decide ((first.2.proc init).used = true) &&
        ((openLink.script roomSuperblock 0x800 init).run first.2).toOption.any fun second =>
          decide (second.1 = 0) && (decide (AtLink second.2) &&
          ((((writeSlashes 3).script roomSuperblock 0x800 init).run second.2).toOption.any
            (fun last => decide (last.1 = 3)) &&
          (((writeSlashes 200).script roomSuperblock 0x800 init).run second.2).toOption.any
            (fun last => decide ((last.2.proc init).used = true) &&
              (decide ((dinode roomSuperblock last.2.fs.disk 2).type = T_SYMLINK) &&
              (decide (MAXPATH ≤ (dinode roomSuperblock last.2.fs.disk 2).size) &&
              (((sys_open roomSuperblock 0x800 init clearLocals O_RDONLY (some [97])).run
                last.2).toOption.any (fun read => decide (read.1 = 1)) &&
              ((sys_openCut roomSuperblock 0x800 init clearLocals O_RDONLY (some [97])).run
                last.2).toOption.any fun read => decide (read.1 = -1))))))))) = true := by
    decide +kernel
  obtain ⟨_, k₁, made, rest⟩ := exists_of_any evaluated
  simp only [Bool.and_eq_true, decide_eq_true_eq] at rest
  obtain ⟨rfl, alive, rest⟩ := rest
  obtain ⟨_, k₂, opened, rest⟩ := exists_of_any rest
  simp only [Bool.and_eq_true, decide_eq_true_eq] at rest
  obtain ⟨rfl, atLink, short, long⟩ := rest
  refine ⟨k₁, k₂, made, alive, opened, atLink, ?_, ?_⟩
  · simpa only [decide_eq_true_eq] using short
  · simpa only [Bool.and_eq_true, decide_eq_true_eq] using long

/-- The target is written twice within the buffer, by `sys_symlink` and by a write of three bytes. -/
theorem targets_fit_small : ∃ k, Run (fun k request k' => Serves roomSuperblock 0x800 k request k' ∧
      request.2.Fetched ∧ request.2.KeepsTargets roomSuperblock k request.1) rootKernel
      [(init, makeLink), (init, openLink), (init, writeSlashes 3)] k ∧
    ∀ n, InUse roomSuperblock (dinode roomSuperblock k.fs.disk) n →
      (dinode roomSuperblock k.fs.disk n).type = T_SYMLINK →
      (dinode roomSuperblock k.fs.disk n).size < MAXPATH := by
  obtain ⟨k₁, k₂, made, alive, opened, atLink, short, -⟩ := link_opened
  obtain ⟨r, k, wrote, -⟩ := exists_of_any short
  obtain ⟨alive', isFile, link, begins⟩ := atLink
  have keeps : (writeSlashes 3).KeepsTargets roomSuperblock k₂ init := by
    intro f isF _ _
    rw [isFile] at isF
    cases isF
    rw [link, begins]
    decide
  have run : Run (fun k request k' => Serves roomSuperblock 0x800 k request k' ∧ request.2.Fetched ∧
      request.2.KeepsTargets roomSuperblock k request.1) rootKernel
      [(init, makeLink), (init, openLink), (init, writeSlashes 3)] k :=
    .cons ⟨⟨rfl, 0, made⟩, makeLink_fetched, trivial⟩ (.cons ⟨⟨alive, 0, opened⟩, trivial, trivial⟩
      (.cons ⟨⟨alive', r, wrote⟩, trivial, keeps⟩ (.nil k)))
  exact ⟨k, run, (targets_fit targets_rootKernel run).1.1⟩

/-- **A write past the buffer.** "a" is a link to "b". It is opened with `O_NOFOLLOW` for reading and
writing, and 200 slashes are written to it. The next open of "a" reads them all. -/
theorem written_target_overflows : ∃ k, Targets roomSuperblock rootKernel ∧
    Run (fun k request k' => Serves roomSuperblock 0x800 k request k' ∧ request.2.Fetched) rootKernel
      [(init, makeLink), (init, openLink), (init, writeSlashes 200)] k ∧
    (dinode roomSuperblock k.fs.disk 2).type = T_SYMLINK ∧
    MAXPATH ≤ (dinode roomSuperblock k.fs.disk 2).size ∧
    (∃ k', (sys_open roomSuperblock 0x800 init clearLocals O_RDONLY (some [97])).run k = .ok (1, k')) ∧
    ∃ k', (sys_openCut roomSuperblock 0x800 init clearLocals O_RDONLY (some [97])).run k = .ok (-1, k') := by
  obtain ⟨k₁, k₂, made, alive, opened, atLink, -, long⟩ := link_opened
  obtain ⟨r, k, wrote, rest⟩ := exists_of_any long
  simp only [Bool.and_eq_true, decide_eq_true_eq] at rest
  obtain ⟨-, link, size, reads, cut⟩ := rest
  obtain ⟨r₁, k₃, read, isOne⟩ := exists_of_any reads
  obtain ⟨r₂, k₄, stopped, isMinus⟩ := exists_of_any cut
  obtain rfl := of_decide_eq_true isOne
  obtain rfl := of_decide_eq_true isMinus
  exact ⟨k, targets_rootKernel, .cons ⟨⟨rfl, 0, made⟩, makeLink_fetched⟩ (.cons ⟨⟨alive, 0, opened⟩, trivial⟩
    (.cons ⟨⟨atLink.1, r, wrote⟩, trivial⟩ (.nil k))), link, size, ⟨k₃, read⟩, k₄, stopped⟩

end Csc3150.Namespace
