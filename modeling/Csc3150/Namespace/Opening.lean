/-
**What `sys_open` opens.**

A directory is opened for reading only: `sys_open` tests that before it follows symbolic links.

* `Fades` — inodes may be dropped during a lookup, and are free afterwards;
* `namei_leads` — a lookup that ends in an inode ends in the one that the path leads to on the disk as it
  was before;
* `Ends` — the end of a chain of links, with the buffer that the targets are read into;
* `sys_open_opens` — what a call that succeeds has opened;
* `directories_unwritten` — no write reaches a directory, in every run without an open for writing of a
  link that leads to a directory.
-/

import Csc3150.Namespace.TargetBound

namespace Csc3150.Namespace

open ByteBuffer FileSystem Outcome Program Search Transition
open Program.Script (atomic)

/-! ### Dropped inodes -/

/-- Every inode that is allocated afterwards is as it was before. -/
def Fades (sb : Superblock) (disk after : Disk) : Prop :=
  ∀ n x, nodeAt sb after n = some x → nodeAt sb disk n = some x

section Fades

variable {sb : Superblock} {disk middle after : Disk} {n m : Nat}

theorem Fades.refl (sb : Superblock) (disk : Disk) : Fades sb disk disk := fun _ _ => id

theorem Fades.trans (first : Fades sb disk middle) (second : Fades sb middle after) :
    Fades sb disk after := fun n x isNode => first n x (second n x isNode)

theorem Fades.child (fades : Fades sb disk after) {c : List UInt8}
    (leads : child (nodeAt sb after) n c = some m) : child (nodeAt sb disk) n c = some m := by
  obtain ⟨x, isNode, found⟩ := Option.bind_eq_some_iff.mp leads
  exact Option.bind_eq_some_iff.mpr ⟨x, fades n x isNode, found⟩

theorem Fades.resolve (fades : Fades sb disk after) : ∀ {cs : List (List UInt8)} {n : Nat},
    Namespace.resolve (nodeAt sb after) n cs = some m →
      Namespace.resolve (nodeAt sb disk) n cs = some m := by
  intro cs
  induction cs with
  | nil => exact id
  | cons c rest ih =>
    intro n leads
    obtain ⟨l, first, last⟩ := Option.bind_eq_some_iff.mp leads
    exact Option.bind_eq_some_iff.mpr ⟨l, fades.child first, ih last⟩

end Fades

namespace Books

variable {sb : Superblock} {rest : Rest} {held locks : List Ip} {fs : Fs} {i : Ip} {nm : Name}

theorem iput_fades (here : Books sb rest (i :: held) locks fs) (kept : i ∈ locks → i ∈ held) :
    Ensures (Namespace.iput sb i).run fs fun _ fs' => Fades sb fs.disk fs'.disk := by
  have pos := here.ledger.ref_pos (i := i) List.mem_cons_self
  have total := here.exact i
  rw [List.count_cons_self] at total
  push_cast at total
  have nonneg := here.nonneg i
  have unshared : (fs.inode i).lock = true → 1 < (fs.inode i).ref := fun isLocked => by
    have count := List.count_pos_iff.mpr (kept ((here.ledger.locked i).mp isLocked))
    omega
  rw [run_iput]
  obtain ⟨r, fs', run, spec⟩ := iput_spec here.ledger.sound pos unshared
  intro a after ends
  cases run.symm.trans ends
  obtain ⟨-, ⟨-, rfl⟩ | ⟨-, -, -, touches, -, own⟩⟩ := spec
  · exact Fades.refl sb _
  · intro n x isNode
    by_cases isI : n = (fs.inode i).inum
    · have inUse := (nodeAt_eq_some.mp isNode).1
      rw [isI] at inUse
      exact absurd (by rw [own]) inUse.2.2
    · rwa [nodeAt_touches touches here.ledger.formed.bounded isI] at isNode

theorem iunlockput_fades (here : Books sb rest (i :: held) (i :: locks) fs) :
    Ensures (Namespace.iunlockput sb i).run fs fun _ fs' => Books sb rest held locks fs' ∧
      (∀ j ∈ held, Keeps sb fs fs' j) ∧ Fades sb fs.disk fs'.disk := by
  have free := (List.nodup_cons.mp here.ledger.distinct).1
  have fades : Ensures (Namespace.iunlockput sb i).run fs fun _ fs' => Fades sb fs.disk fs'.disk := by
    refine .seq (.atomic here.iunlock.ends) fun _ fs₁ unlocked => ?_
    rw [← unlocked.2.1]
    exact unlocked.1.iput_fades fun isLocked => absurd isLocked free
  intro a fs' run
  obtain ⟨after, keeps⟩ := here.iunlockput.ends a fs' run
  exact ⟨after, keeps, fades a fs' run⟩

/-- A locked inode, as a node. -/
theorem nodeAt_locked (here : Books sb rest held locks fs) (lock : i ∈ locks) :
    ∃ x, nodeAt sb fs.disk (fs.inode i).inum = some x ∧ x.type = (fs.inode i).type ∧
      x.bytes = content sb fs.disk (fs.inode i).inum := by
  have cached := here.ledger.cached lock
  exact ⟨_, nodeAt_of_inUse cached.inUse, (congrArg Dinode.type cached.same).symm, rfl⟩

/-- The loop of `namex`. -/
theorem namexFrom_leads (fuel : Nat) : ∀ {path nm i fs}, path.length ≤ fuel →
    Books sb rest (i :: held) [] fs →
    Ensures (Namespace.namexFrom sb false fuel path i nm).run fs fun r fs' =>
      Fades sb fs.disk fs'.disk ∧ ∀ j, r.1 = some j →
        resolve (nodeAt sb fs.disk) (fs.inode i).inum (components path) = some (fs'.inode j).inum := by
  have stays : ∀ {path nm i fs}, components path = [] →
      Ensures (Namespace.namexEnd sb false i nm).run fs fun r fs' =>
        Fades sb fs.disk fs'.disk ∧ ∀ j, r.1 = some j →
          resolve (nodeAt sb fs.disk) (fs.inode i).inum (components path) = some (fs'.inode j).inum := by
    intro path nm i fs atEnd
    refine .done ⟨Fades.refl sb _, fun j isJ => ?_⟩
    cases isJ
    rw [atEnd]
    rfl
  induction fuel with
  | zero =>
    intro path nm i fs short _
    have empty : path = [] := List.length_eq_zero_iff.mp (Nat.le_zero.mp short)
    exact stays (by rw [empty]; rfl)
  | succ fuel ih =>
    intro path nm i fs short here
    rw [Namespace.namexFrom]
    cases skipped : skipelem path nm with
    | none => exact stays (skipelem_eq_none.mp skipped)
    | some next =>
      obtain ⟨left, nm'⟩ := next
      obtain ⟨split, shorter, -⟩ := skipelem_eq_some skipped
      dsimp only
      refine .seq (.atomic (here.ilock List.mem_cons_self List.not_mem_nil).ends) fun _ fs₁ locked => ?_
      obtain ⟨locked, disk, number, -⟩ := locked
      have lock : i ∈ [i] := List.mem_cons_self
      refine .seq_run (a := fs₁.inode i) rfl ?_
      by_cases isDir : (fs₁.inode i).type = T_DIR
      · rw [if_neg (not_not.mpr isDir), if_neg fun stop => absurd stop.1 Bool.false_ne_true]
        refine .seq (locked.dirlookup lock).ends fun r fs₂ found => ?_
        obtain ⟨-, ⟨rfl, rfl⟩ | ⟨m, n, k, rfl, isEntry, entered, disk', isN, -⟩⟩ := found
        · refine .seq locked.iunlockput_fades fun _ fs₃ after => .done ⟨?_, fun j none => ?_⟩
          · rw [← disk]
            exact after.2.2
          · cases none
        · have swapped := entered.perm (List.Perm.swap i m held) (List.Perm.refl _)
          refine .seq swapped.iunlockput_fades fun _ fs₃ after => ?_
          obtain ⟨dropped, keeps, fades⟩ := after
          rw [disk', disk] at fades
          intro r fs' run
          obtain ⟨fades', leads⟩ := ih (by omega) dropped r fs' run
          refine ⟨fades.trans fades', fun j isJ => ?_⟩
          obtain ⟨x, isNode, type, bytes⟩ := locked.nodeAt_locked lock
          rw [disk, number i] at isNode
          have step : child (nodeAt sb fs.disk) (fs.inode i).inum (key nm') = some n := by
            rw [child_eq isNode (type.trans isDir), bytes, isEntry]
            rfl
          rw [split, resolve, step, Option.bind_some]
          have last := fades.resolve (leads j isJ)
          rwa [(keeps m List.mem_cons_self).1, isN] at last
      · rw [if_pos isDir]
        refine .seq locked.iunlockput_fades fun _ fs₂ after => .done ⟨?_, fun j none => ?_⟩
        · rw [← disk]
          exact after.2.2
        · cases none

end Books

/-- A lookup that ends in an inode. -/
theorem Books.namei_leads {sb : Superblock} {rest : Rest} {held : List Ip} {fs : Fs} {nm : Name}
    (here : Books sb rest held [] fs) (root : ROOTINO < sb.ninodes) {cwd : Ip} (member : cwd ∈ held)
    (path : List UInt8) : Ensures (Namespace.namei sb cwd path nm).run fs fun r fs' =>
      Books sb rest (r.toList ++ held) [] fs' ∧ (∀ j ∈ held, Keeps sb fs fs' j) ∧
      Fades sb fs.disk fs'.disk ∧ ∀ j, r = some j →
        resolve (nodeAt sb fs.disk) (start (fs.inode cwd).inum path) (components path) =
          some (fs'.inode j).inum := by
  have walked : Ensures (Namespace.namex sb cwd path false nm).run fs fun r fs' =>
      Fades sb fs.disk fs'.disk ∧ ∀ j, r.1 = some j →
        resolve (nodeAt sb fs.disk) (start (fs.inode cwd).inum path) (components path) =
          some (fs'.inode j).inum := by
    rw [Namespace.namex, start]
    by_cases absolute : path.headD 0 = slash
    · rw [if_pos absolute, if_pos absolute]
      refine .seq (.atomic (here.iget (by decide) root).ends) fun i fs₁ begun => ?_
      obtain ⟨begun, disk, number, -⟩ := begun
      rw [← disk, ← number]
      exact begun.namexFrom_leads path.length le_rfl
    · rw [if_neg absolute, if_neg absolute]
      refine .seq (.atomic (here.idup member).ends) fun i fs₁ begun => ?_
      obtain ⟨rfl, begun, disk, number⟩ := begun
      rw [← disk, ← number i]
      exact begun.namexFrom_leads path.length le_rfl
  have books : Ensures (Namespace.namex sb cwd path false nm).run fs _ :=
    (here.namex root member false path).ends
  refine .seq (fun r fs' run => And.intro (books r fs' run) (walked r fs' run)) fun r fs' both => .done ?_
  exact ⟨both.1.1, both.1.2, both.2.1, both.2.2⟩

/-! ### Where links lead -/

/-- Following links from `n` on, with the targets read into the buffer one over the other: after `count`
of them, an inode that is no link. -/
inductive Ends (node : Nat → Option Node) (home : Nat) :
    (count : Nat) → (target : List UInt8) → (n : Nat) → Node → Prop where
  | here {target : List UInt8} {n : Nat} {x : Node} (isNode : node n = some x)
      (other : x.type ≠ T_SYMLINK) : Ends node home 0 target n x
  | next {count : Nat} {target : List UInt8} {n m : Nat} {x y : Node} (isNode : node n = some x)
      (link : x.type = T_SYMLINK)
      (leads : resolve node (start home (cstring (overwrite target 0 x.bytes)))
        (components (cstring (overwrite target 0 x.bytes))) = some m)
      (rest : Ends node home count (overwrite target 0 x.bytes) m y) : Ends node home (count + 1) target n y

section Ends

variable {node : Nat → Option Node} {home count count' n : Nat} {target : List UInt8} {x y y' : Node}

/-- There is one end. -/
theorem Ends.unique (ends : Ends node home count target n y) (ends' : Ends node home count' target n y') :
    y = y' := by
  induction ends generalizing count' with
  | here isNode other =>
    cases ends' with
    | here isNode' => exact Option.some.inj (isNode.symm.trans isNode')
    | next isNode' link =>
      cases isNode.symm.trans isNode'
      exact absurd link other
  | next isNode link leads rest ih =>
    cases ends' with
    | here isNode' other =>
      cases isNode.symm.trans isNode'
      exact absurd link other
    | next isNode' link' leads' rest' =>
      cases isNode.symm.trans isNode'
      cases leads.symm.trans leads'
      exact ih rest'

theorem Ends.fades {sb : Superblock} {disk after : Disk} (fades : Fades sb disk after)
    (ends : Ends (nodeAt sb after) home count target n y) :
    Ends (nodeAt sb disk) home count target n y := by
  induction ends with
  | here isNode other => exact .here (fades _ _ isNode) other
  | next isNode link leads rest ih => exact .next (fades _ _ isNode) link (fades.resolve leads) ih

/-- From an inode that is no link. -/
theorem ends_other (isNode : node n = some x) (other : x.type ≠ T_SYMLINK) :
    Ends node home count target n y ↔ count = 0 ∧ y = x := by
  constructor
  · intro ends
    cases ends with
    | here isNode' => exact ⟨rfl, Option.some.inj (isNode'.symm.trans isNode)⟩
    | next isNode' link =>
      cases isNode.symm.trans isNode'
      exact absurd link other
  · rintro ⟨rfl, rfl⟩
    exact .here isNode other

end Ends

/-- Reading a locked inode as a whole, as `sys_open` does. -/
theorem Books.readi_whole {sb : Superblock} {rest : Rest} {held locks : List Ip} {fs : Fs} {i : Ip}
    (here : Books sb rest held locks fs) (lock : i ∈ locks) :
    Meets (Fs.readi sb i (fun _ _ => false) 0 (UInt32.ofNat (fs.inode i).size)) fs Awake fun r fs' =>
      fs' = fs ∧ r = (((fs.inode i).size : Int), content sb fs.disk (fs.inode i).inum) := by
  have total : MAXFILE * BSIZE < 2 ^ 32 := by decide
  have small := here.ledger.size_le lock
  have length : (content sb fs.disk (fs.inode i).inum).length = (fs.inode i).size := by
    rw [content_length, (here.ledger.cached lock).same]
  have size : (UInt32.ofNat (fs.inode i).size).toNat = (fs.inode i).size :=
    UInt32.toNat_ofNat_of_lt' (lt_of_le_of_lt small total)
  have amount : readable (fs.inode i).size 0 (UInt32.ofNat (fs.inode i).size) = (fs.inode i).size := by
    have zero : (0 : UInt32).toNat = 0 := rfl
    rw [readable, size, zero, if_neg (by omega)]
    omega
  rcases Fs.readi_spec here.ledger.sound ((here.ledger.locked i).mpr lock) (fun _ _ => false) 0
    (UInt32.ofNat (fs.inode i).size) with ⟨error, -⟩ | ⟨r, bytes, run, ⟨whole, all⟩ | ⟨-, t, m, fault⟩⟩
  · exact .of_error error Halt.noConfusion
  · rw [amount] at whole all
    refine .of_ok run ⟨rfl, Prod.ext whole (all.trans ?_)⟩
    exact List.take_of_length_le (le_of_eq length)
  · cases fault

section Calls

variable {limit : Nat} {sb : Superblock} {watch : FileIx → Prop} {k : Kernel} {p : Pid} {i : Ip} {fs : Fs}

/-- The loop that follows symbolic links ends at the end of the chain. -/
theorem follow_leads (root : ROOTINO < sb.ninodes) {cwd : Ip} (member : cwd ∈ k.cwds) {home : Nat}
    {nm : Name} {nofollow : Bool} : ∀ {fuel retry : Nat} {target : List UInt8} {i : Ip} {fs : Fs},
    Books sb (k.rest limit watch) (i :: k.cwds) [i] fs → (fs.inode cwd).inum = home → 10 - retry ≤ fuel →
    Meets (follow sb cwd nm nofollow fuel retry target i).run (k.during fs) Awake fun r k' =>
      ∀ j last, r = some (j, last) → last < 10 → (nofollow = true ∧ j = i ∧ k'.fs = fs) ∨
        nofollow = false ∧ ∃ count y, count ≤ 10 - retry ∧
          Ends (nodeAt sb fs.disk) home count target (fs.inode i).inum y ∧
          y.type = (k'.fs.inode j).type := by
  intro fuel
  induction fuel with
  | zero =>
    intro retry target i fs _ _ enough
    refine .done fun j last isLast few => ?_
    cases isLast
    omega
  | succ fuel ih =>
    intro retry target i fs locked isHome enough
    have lock : i ∈ [i] := List.mem_cons_self
    obtain ⟨x, isNode, type, bytes⟩ := locked.nodeAt_locked lock
    by_cases stays : (fs.inode i).type = T_SYMLINK ∧ nofollow = false ∧ retry < 10
    · rw [follow]
      refine during_inode ?_
      rw [if_pos stays]
      refine during_seq₁ (locked.readi_whole lock) fun r fs₁ got => ?_
      obtain ⟨rfl, rfl⟩ := got
      dsimp only
      rw [if_neg (not_not.mpr rfl), ← bytes]
      refine during_seq (locked.iunlockput.also locked.iunlockput_fades) fun _ fs₂ dropped => ?_
      obtain ⟨-, dropped, keeps, fades⟩ := dropped
      refine during_seq ((dropped.namei root member _).also (dropped.namei_leads root member _))
        fun r fs₃ found => ?_
      obtain ⟨-, found, keeps', fades', leads⟩ := found
      cases r with
      | none => exact .seq_run rfl (.done fun j last none => by cases none)
      | some j =>
        refine during_seq₁ (found.ilock List.mem_cons_self List.not_mem_nil) fun _ fs₄ next => ?_
        obtain ⟨next, disk, number, -⟩ := next
        have home₂ : (fs₂.inode cwd).inum = home := (keeps cwd member).1.trans isHome
        have home₄ : (fs₄.inode cwd).inum = home :=
          ((number cwd).trans (keeps' cwd member).1).trans home₂
        have hop := fades.resolve (leads j rfl)
        rw [home₂, ← number j] at hop
        have back : Fades sb fs₁.disk fs₄.disk := by
          rw [disk]
          exact fades.trans fades'
        refine during_inode ?_
        obtain ⟨z, isNext, type', -⟩ := next.nodeAt_locked List.mem_cons_self
        by_cases again : (fs₄.inode j).type = T_SYMLINK
        · rw [if_pos again]
          refine (ih next home₄ (by omega)).mono fun r k' ends l last isLast few => Or.inr ⟨stays.2.1, ?_⟩
          obtain ⟨isTrue, -⟩ | ⟨-, count, y, within, ends, same⟩ := ends l last isLast few
          · exact absurd (isTrue.symm.trans stays.2.1) Bool.noConfusion
          · have few := stays.2.2
            exact ⟨count + 1, y, by omega, .next isNode (type.trans stays.1) hop (ends.fades back), same⟩
        · rw [if_neg again]
          refine .congr (follow_leaves (fun more => again more.1) fuel _)
            (.pure fun l last isLast few => ?_)
          cases isLast
          refine Or.inr ⟨stays.2.1, 1, z, by omega, .next isNode (type.trans stays.1) hop ?_, type'⟩
          exact .here (back _ _ isNext) fun link => again (type'.symm.trans link)
    · refine .congr (follow_leaves stays (fuel + 1) target) (.pure fun l last isLast few => ?_)
      cases isLast
      cases nofollow with
      | true => exact Or.inl ⟨rfl, rfl, rfl⟩
      | false =>
        refine Or.inr ⟨rfl, 0, x, Nat.zero_le _, .here isNode fun link => ?_, type⟩
        exact stays ⟨type.symm.trans link, rfl, few⟩

/-- A mode with `O_WRONLY` or `O_RDWR`. -/
def ForWriting (omode : UInt32) : Prop := hasFlag omode O_WRONLY = true ∨ hasFlag omode O_RDWR = true

instance (omode : UInt32) : Decidable (ForWriting omode) := inferInstanceAs (Decidable (_ ∨ _))

theorem ForWriting.not_readOnly {omode : UInt32} (writes : ForWriting omode) : omode ≠ O_RDONLY := by
  rintro rfl
  exact absurd writes (by decide)

/-- What `sys_open` starts with. -/
theorem openStart_leads (here : InOrder limit sb watch k) (root : ROOTINO < sb.ninodes)
    (width : sb.ninodes ≤ 2 ^ 16) (alive : (k.proc p).used = true) {omode : UInt32} (locals : Locals)
    (path : List UInt8) : Meets (openStart sb p locals omode path).run (k.during k.fs) Awake fun r k' =>
      ∀ i, r = some i → (hasFlag omode O_CREATE = true → (k'.fs.inode i).type ≠ T_DIR ∧
          (k'.fs.inode i).type ≠ T_SYMLINK) ∧
        (hasFlag omode O_CREATE = false → (ForWriting omode → (k'.fs.inode i).type ≠ T_DIR) ∧
          Fades sb k.fs.disk k'.fs.disk ∧
          (k'.fs.inode (k.proc p).cwd).inum = (k.fs.inode (k.proc p).cwd).inum ∧
          resolve (nodeAt sb k.fs.disk) (start (k.fs.inode (k.proc p).cwd).inum path) (components path) =
            some (k'.fs.inode i).inum) := by
  have member : (k.proc p).cwd ∈ k.cwds := cwd_mem alive
  refine during_cwd ?_
  by_cases creates : hasFlag omode O_CREATE = true
  · rw [if_pos creates]
    refine during_seq (here.books.create root width member path) fun r fs₁ created => ?_
    rcases created with ⟨rfl, -⟩ | ⟨i, rfl, locked, type⟩
    · exact .seq_run rfl (.done fun i none => by cases none)
    · refine .done fun j isJ => ⟨fun _ => ?_, fun plain =>
        absurd (creates.symm.trans plain) Bool.noConfusion⟩
      cases isJ
      show (fs₁.inode i).type ≠ T_DIR ∧ (fs₁.inode i).type ≠ T_SYMLINK
      rcases type with file | ⟨-, file | device⟩
      · rw [file]
        decide
      · rw [file]
        decide
      · rw [device]
        decide
  · rw [if_neg creates]
    refine during_seq ((here.books.namei root member path).also (here.books.namei_leads root member path))
      fun r fs₁ found => ?_
    obtain ⟨-, found, keeps, fades, leads⟩ := found
    cases r with
    | none => exact .seq_run rfl (.done fun i none => by cases none)
    | some i =>
      refine during_seq₁ (found.ilock List.mem_cons_self List.not_mem_nil) fun _ fs₂ locked => ?_
      obtain ⟨locked, disk, number, -⟩ := locked
      refine during_inode ?_
      by_cases directory : (fs₂.inode i).type = T_DIR ∧ omode ≠ O_RDONLY
      · rw [if_pos directory]
        exact during_seq locked.iunlockput fun _ fs₃ after =>
          .seq_run rfl (.done fun i none => by cases none)
      · rw [if_neg directory]
        refine .done fun j isJ => ⟨fun creates' => absurd creates' creates, fun _ => ?_⟩
        cases isJ
        refine ⟨fun writes isDir => directory ⟨isDir, writes.not_readOnly⟩, ?_, ?_, ?_⟩
        · show Fades sb k.fs.disk fs₂.disk
          rw [disk]
          exact fades
        · exact (number _).trans (keeps _ member).1
        · exact (leads i rfl).trans (congrArg some (number i).symm)

/-- The open is for writing, and the path leads to a link at the end of which there is a directory. -/
def OpensDirectory (sb : Superblock) (O_NOFOLLOW omode : UInt32) (disk : Disk) (home : Nat)
    (target path : List UInt8) : Prop :=
  ForWriting omode ∧ hasFlag omode O_CREATE = false ∧ hasFlag omode O_NOFOLLOW = false ∧
    ∃ n count y, resolve (nodeAt sb disk) (start home path) (components path) = some n ∧
      0 < count ∧ count ≤ 10 ∧ Ends (nodeAt sb disk) home count target n y ∧ y.type = T_DIR

/-- Where the loop ends, against where the path leads. -/
theorem opens_iff {cwd j : Ip} {fs' : Fs} {omode O_NOFOLLOW : UInt32} {target path : List UInt8}
    (locked : Books sb (k.rest limit watch) (i :: k.cwds) [i] fs) (writes : ForWriting omode)
    (created : hasFlag omode O_CREATE = true → (fs.inode i).type ≠ T_DIR ∧ (fs.inode i).type ≠ T_SYMLINK)
    (found : hasFlag omode O_CREATE = false → (ForWriting omode → (fs.inode i).type ≠ T_DIR) ∧
      Fades sb k.fs.disk fs.disk ∧ (fs.inode cwd).inum = (k.fs.inode cwd).inum ∧
      resolve (nodeAt sb k.fs.disk) (start (k.fs.inode cwd).inum path) (components path) =
        some (fs.inode i).inum)
    (ends : (hasFlag omode O_NOFOLLOW = true ∧ j = i ∧ fs' = fs) ∨ hasFlag omode O_NOFOLLOW = false ∧
      ∃ count y, count ≤ 10 - 0 ∧
        Ends (nodeAt sb fs.disk) (fs.inode cwd).inum count target (fs.inode i).inum y ∧
        y.type = (fs'.inode j).type) :
    (fs'.inode j).type = T_DIR ↔
      OpensDirectory sb O_NOFOLLOW omode k.fs.disk (k.fs.inode cwd).inum target path := by
  -- the inode that the loop starts with is no directory
  have file : (fs.inode i).type ≠ T_DIR := by
    cases creates : hasFlag omode O_CREATE with
    | true => exact (created creates).1
    | false => exact (found creates).1 writes
  obtain ⟨x, isNode, type, -⟩ := locked.nodeAt_locked List.mem_cons_self
  rcases ends with ⟨nofollow, rfl, rfl⟩ | ⟨follows, count, y, within, ends, same⟩
  · exact iff_of_false file fun opens => absurd (nofollow.symm.trans opens.2.2.1) Bool.noConfusion
  · rw [← same]
    have moves : y.type = T_DIR → 0 < count := by
      intro isDir
      rcases Nat.eq_zero_or_pos count with rfl | positive
      · cases ends with
        | here isNode' =>
          cases isNode.symm.trans isNode'
          exact absurd (type.symm.trans isDir) file
      · exact positive
    cases creates : hasFlag omode O_CREATE with
    | true =>
      refine iff_of_false (fun isDir => ?_) fun opens =>
        absurd (creates.symm.trans opens.2.1) Bool.noConfusion
      have positive := moves isDir
      have other : x.type ≠ T_SYMLINK := type ▸ (created creates).2
      obtain ⟨rfl, -⟩ := (ends_other isNode other).mp ends
      exact absurd positive (lt_irrefl 0)
    | false =>
      obtain ⟨-, fades, home, leads⟩ := found creates
      rw [home] at ends
      refine ⟨fun isDir => ⟨writes, creates, follows, _, count, y, leads, moves isDir, within,
        ends.fades fades, isDir⟩, fun opens => ?_⟩
      obtain ⟨-, -, -, n, count', y', leads', -, -, ends', isDir⟩ := opens
      cases leads.symm.trans leads'
      rw [(ends.fades fades).unique ends']
      exact isDir

/-- What a call that succeeds has opened: for writing a directory exactly when a link leads there. -/
theorem sys_open_opens (here : InOrder limit sb watch k) (root : ROOTINO < sb.ninodes)
    (width : sb.ninodes ≤ 2 ^ 16) (alive : (k.proc p).used = true) (O_NOFOLLOW omode : UInt32)
    (locals : Locals) (path : List UInt8) :
    Meets (sys_open sb O_NOFOLLOW p locals omode (some path)).run k Awake fun r k' =>
      (r = -1 ∧ Balances limit sb watch k k') ∨ ∃ (i : Ip) (type : Int16) (f : FileIx) (fd : Fd),
        r = fd.val ∧ (k'.proc p).ofile fd = some f ∧ Opened limit sb watch k omode i type f k' ∧
        type ≠ 0 ∧ (ForWriting omode → (type = T_DIR ↔ OpensDirectory sb O_NOFOLLOW omode k.fs.disk
          (k.fs.inode (k.proc p).cwd).inum locals.target path)) := by
  refine during_begin ?_
  have begins : Meets (openStart sb p locals omode path).run (k.during k.fs) Awake _ :=
    openStart_leads here root width alive locals path
  refine .seq ((openStart_balances root width here alive locals omode path).also begins.ends)
    fun r k₁ begun => ?_
  obtain ⟨⟨rfl, failed⟩ | ⟨i, fs, rfl, rfl, locked⟩, leads⟩ := begun
  · exact .done (Or.inl ⟨rfl, failed⟩)
  · obtain ⟨created, found⟩ := leads i rfl
    have member : (k.proc p).cwd ∈ k.cwds := cwd_mem alive
    refine during_cwd ?_
    have follows : Meets (follow sb (k.proc p).cwd locals.name (hasFlag omode O_NOFOLLOW) 11 0
        locals.target i).run (k.during fs) Awake _ := follow_leads root member locked rfl (by decide)
    refine .seq ((follow_balances root here member locked).also follows.ends) fun r k₂ followed => ?_
    obtain ⟨⟨isNone, failed⟩ | ⟨j, fs', isSome, rfl, locked'⟩, ends⟩ := followed
    · obtain rfl := Option.map_eq_none_iff.mp isNone
      exact .done (Or.inl ⟨rfl, failed⟩)
    · obtain ⟨⟨j, retry⟩, rfl, rfl⟩ := Option.map_eq_some_iff.mp isSome
      dsimp only
      by_cases spent : 10 ≤ retry
      · rw [if_pos spent]
        exact ((openFail_balances here locked').also (openFail_fails j _)).mono fun _ _ both =>
          Or.inl ⟨both.2, both.1⟩
      · rw [if_neg spent]
        refine (openRest_settles here omode locked').mono fun r k' settled => settled.imp id ?_
        rintro ⟨f, fd, isFd, holds, opened⟩
        refine ⟨j, _, f, fd, isFd, holds, opened, ?_, fun writes => ?_⟩
        · have cached := locked'.ledger.cached (i := j) List.mem_cons_self
          rw [show (fs'.inode j).type = _ from congrArg Dinode.type cached.same]
          exact cached.inUse.2.2
        · exact opens_iff locked writes created found (ends j retry rfl (Nat.lt_of_not_le spent))

end Calls

/-! ### Runs -/

/-- No directory is opened for writing through a link. -/
def Syscall.OpensNoDirectory (sb : Superblock) (O_NOFOLLOW : UInt32) (k : Kernel) (p : Pid) : Syscall → Prop
  | .sys_open locals omode path => ∀ bytes, path = some bytes →
    ¬ OpensDirectory sb O_NOFOLLOW omode k.fs.disk (k.fs.inode (k.proc p).cwd).inum locals.target bytes
  | _ => True

/-- A kernel between two calls, without a directory that is open for writing. -/
structure Guarded (sb : Superblock) (k : Kernel) : Prop where
  order : InOrder (MAXFILE * BSIZE) sb (fun f => (k.file f).writable = true) k
  root : ROOTINO < sb.ninodes
  width : sb.ninodes ≤ 2 ^ 16

section Runs

variable {limit : Nat} {sb : Superblock} {watch : FileIx → Prop} {O_NOFOLLOW : UInt32} {k k' : Kernel}
  {p : Pid} {call : Syscall}

/-- One more file to watch. -/
theorem InOrder.watched {i : Ip} {f : FileIx} (here : InOrder limit sb (fun g => watch g ∧ g ≠ f) k)
    (points : (k.file f).node = some i) (typed : diskType sb k.fs i ≠ 0)
    (file : diskType sb k.fs i ≠ T_DIR) : InOrder limit sb watch k := by
  obtain ⟨⟨ledger, exact, tidy, files⟩, closed⟩ := here
  refine ⟨⟨ledger, exact, tidy, fun j used => ?_⟩, closed⟩
  obtain ⟨g, watched, points'⟩ := used
  by_cases isF : g = f
  · rw [isF, points] at points'
    cases points'
    exact ⟨Int.natCast_pos.mpr (List.count_pos_iff.mpr (mem_opens points)), typed, file⟩
  · exact files j ⟨g, ⟨watched, isF⟩, points'⟩

/-- What is open for writing is no directory. -/
theorem Guarded.file (here : Guarded sb k) {f : FileIx} (isOpen : (k.file f).type.hasInode = true)
    (writable : (k.file f).writable = true) : diskType sb k.fs (k.file f).ip ≠ T_DIR := by
  have used : 0 < (k.file f).ref := by
    by_contra free
    have closed := here.order.closed f (by omega)
    exact absurd (isOpen.symm.trans closed) Bool.noConfusion
  exact (here.order.books.files _ ⟨f, writable, if_pos ⟨used, isOpen⟩⟩).2.2

theorem Guarded.spares (here : Guarded sb k) (p : Pid) (call : Syscall) :
    call.SparesDirectories sb k p := by
  cases call with
  | sys_write fd src n =>
    exact fun f _ writable isInode => here.file (by rw [isInode]; rfl) writable
  | _ => exact trivial

theorem serves_guarded (here : Guarded sb k) (opens : call.OpensNoDirectory sb O_NOFOLLOW k p)
    (step : Serves sb O_NOFOLLOW k (p, call) k') : Guarded sb k' := by
  obtain ⟨alive, r, run⟩ := step
  refine ⟨?_, here.root, here.width⟩
  have admitted := admitted_of_spares (here.spares p call)
  have keeps : Served (MAXFILE * BSIZE) sb (fun f => (k.file f).writable = true) k k' →
      InOrder (MAXFILE * BSIZE) sb (fun f => (k'.file f).writable = true) k' := fun served =>
    served.order.fewer fun f writable => (served.modes f).symm.trans writable
  rcases (script_leaves here.root here.width here.order alive admitted).ends r k' run with
    served | ⟨locals, omode, path, i, type, f, rfl, opened⟩
  · exact keeps served
  · cases path with
    | none =>
      cases run
      exact here.order
    | some path =>
      have settled :=
        (sys_open_opens here.order here.root here.width alive O_NOFOLLOW omode locals path).ends r k' run
      rcases settled with ⟨-, balances⟩ | ⟨i, type, f, fd, -, -, opened, typed, exactly⟩
      · exact keeps ⟨balances.order, balances.modes⟩
      · obtain ⟨x, -, files⟩ := opened.file
        have others : InOrder (MAXFILE * BSIZE) sb (fun g => (k'.file g).writable = true ∧ g ≠ f) k' := by
          refine opened.order.fewer fun g both => ⟨?_, both.2⟩
          have writable := both.1
          rwa [files, Function.update_of_ne both.2] at writable
        have isF : k'.file f = openedFile omode i x (k.file f) := by
          rw [files, Function.update_self]
        by_cases writes : ForWriting omode
        · refine others.watched (i := i) ?_ (opened.type.trans_ne typed) ?_
          · rw [isF, node_openedFile]
          · rw [opened.type]
            exact fun isDir => opens path rfl ((exactly writes).mp isDir)
        · refine others.fewer fun g writable => ⟨writable, fun same => writes ?_⟩
          rw [same, isF] at writable
          exact of_decide_eq_true writable

/-- **Directories are open for reading only.** A `sys_open` that succeeds gives a file for a directory that
is open for writing exactly when the mode is for writing and the path leads to a symbolic link, and links
from there to the directory. In every run of system calls without such an open, no file that is open for
writing is a directory, and no write of a user reaches one. -/
theorem directories_unwritten :
    (Orderly sb k → ∀ p locals omode path r k', (k.proc p).used = true →
      (sys_open sb O_NOFOLLOW p locals omode path).run k = .ok (r, k') → ∀ fd : Fd, r = fd.val →
      ∃ bytes f, path = some bytes ∧ (k'.proc p).ofile fd = some f ∧
        (((k'.file f).writable = true ∧ diskType sb k'.fs (k'.file f).ip = T_DIR) ↔
          OpensDirectory sb O_NOFOLLOW omode k.fs.disk (k.fs.inode (k.proc p).cwd).inum locals.target
            bytes)) ∧
    ∀ k₀ trace, Guarded sb k₀ → Run (fun k request k' => Serves sb O_NOFOLLOW k request k' ∧
        request.2.OpensNoDirectory sb O_NOFOLLOW k request.1) k₀ trace k →
      (∀ f, (k.file f).type.hasInode = true → (k.file f).writable = true →
        diskType sb k.fs (k.file f).ip ≠ T_DIR) ∧ ∀ p call, Syscall.SparesDirectories sb k p call := by
  refine ⟨fun here p locals omode path r k' alive run fd success => ?_, fun k₀ trace start run => ?_⟩
  · have positive : r ≠ -1 := by
      rw [success]
      omega
    cases path with
    | none =>
      cases run
      exact absurd rfl positive
    | some path =>
      have settled :=
        (sys_open_opens here.order here.root here.width alive O_NOFOLLOW omode locals path).ends r k' run
      rcases settled with ⟨failed, -⟩ | ⟨i, type, f, fd', isFd, holds, opened, -, exactly⟩
      · exact absurd failed positive
      · obtain rfl : fd' = fd := Fin.ext (Int.ofNat.inj (isFd.symm.trans success))
        obtain ⟨x, -, files⟩ := opened.file
        have isF : k'.file f = openedFile omode i x (k.file f) := by
          rw [files, Function.update_self]
        refine ⟨path, f, rfl, holds, ?_⟩
        have flag : (k'.file f).writable = true ↔ ForWriting omode := by
          rw [isF]
          exact decide_eq_true_iff
        have node : (k'.file f).ip = i := by
          rw [isF]
          rfl
        rw [flag, node, opened.type]
        exact ⟨fun both => (exactly both.1).mp both.2, fun opens => ⟨opens.1, (exactly opens.1).mpr opens⟩⟩
  · have here : Guarded sb k := run.invariant
      (fun _ _ _ here step => serves_guarded here step.2 step.1) start
    exact ⟨fun f isOpen writable => here.file isOpen writable, here.spares⟩

end Runs

/-! ### A link to the root -/

theorem guarded_rootKernel : Guarded roomSuperblock rootKernel where
  order := by
    have watched : InOrder (MAXPATH - 1) roomSuperblock (fun f => (rootKernel.file f).writable = true)
        rootKernel := targets_rootKernel.order.fewer fun f writable => by cases writable
    refine watched.tighten fun n inUse link => ?_
    exact le_trans (le_of_lt (targets_rootKernel.short.1 n inUse link)) (by decide)
  root := by decide
  width := by decide

/-- The first descriptor. -/
def firstFd : Fd := ⟨0, Nat.zero_lt_succ _⟩

/-- A new file, opened for reading and writing. -/
def openNew : Syscall := .sys_open clearLocals 0x202 (some [98])

theorem directories_unwritten_small : ∃ k, (openNew.script roomSuperblock 0x800 init).run rootKernel =
      .ok (0, k) ∧
    (∃ bytes f, some [98] = some bytes ∧ (k.proc init).ofile firstFd = some f ∧
      (((k.file f).writable = true ∧ diskType roomSuperblock k.fs (k.file f).ip = T_DIR) ↔
        OpensDirectory roomSuperblock 0x800 0x202 rootKernel.fs.disk
          (rootKernel.fs.inode (rootKernel.proc init).cwd).inum clearLocals.target bytes)) ∧
    ∀ p call, Syscall.SparesDirectories roomSuperblock k p call := by
  have evaluated : ((openNew.script roomSuperblock 0x800 init).run rootKernel).toOption.any
      (fun last => decide (last.1 = 0)) = true := by
    decide +kernel
  obtain ⟨r, k, run, isFirst⟩ := exists_of_any evaluated
  obtain rfl := of_decide_eq_true isFirst
  have orderly : Orderly roomSuperblock rootKernel :=
    ⟨guarded_rootKernel.order.fewer fun _ none => none.elim, guarded_rootKernel.root,
      guarded_rootKernel.width⟩
  have spares : openNew.OpensNoDirectory roomSuperblock 0x800 rootKernel init := fun bytes _ opens =>
    absurd opens.2.1 (by decide)
  refine ⟨k, run, ?_, ?_⟩
  · exact directories_unwritten.1 orderly init clearLocals 0x202 (some [98]) _ k rfl run firstFd rfl
  · exact (directories_unwritten.2 rootKernel [(init, openNew)] guarded_rootKernel
      (.cons ⟨⟨rfl, _, run⟩, spares⟩ (.nil k))).2

/-- **A directory is opened for writing.** "a" is a link to "/". It is opened for reading and writing, and
16 zeros are written over the entry "." of the root directory, which is not found any more. -/
theorem link_opens_directory : ∃ k₁ k₂ k₃ f, Guarded roomSuperblock rootKernel ∧
    (sys_symlink roomSuperblock init clearLocals (some [47]) (some [97])).run rootKernel = .ok (0, k₁) ∧
    (sys_open roomSuperblock 0x800 init clearLocals O_RDWR (some [97])).run k₁ = .ok (0, k₂) ∧
    (k₂.proc init).ofile firstFd = some f ∧ (k₂.file f).writable = true ∧
    diskType roomSuperblock k₂.fs (k₂.file f).ip = T_DIR ∧
    (∃ k, (sys_open roomSuperblock 0x800 init clearLocals O_RDONLY (some [46])).run k₂ = .ok (1, k)) ∧
    (sys_write roomSuperblock init firstFd ⟨fun _ => 0, fun _ _ => none⟩ 16).run k₂ = .ok (16, k₃) ∧
    ∃ k, (sys_open roomSuperblock 0x800 init clearLocals O_RDONLY (some [46])).run k₃ = .ok (-1, k) := by
  have evaluated : ((sys_symlink roomSuperblock init clearLocals (some [47]) (some [97])).run
      rootKernel).toOption.any (fun first => decide (first.1 = 0) &&
        ((sys_open roomSuperblock 0x800 init clearLocals O_RDWR (some [97])).run first.2).toOption.any
          fun second => decide (second.1 = 0 ∧
            (second.2.proc init).ofile firstFd = some ⟨0, by decide⟩ ∧
            (second.2.file ⟨0, by decide⟩).writable = true ∧
            diskType roomSuperblock second.2.fs (second.2.file ⟨0, by decide⟩).ip = T_DIR) &&
            (((sys_open roomSuperblock 0x800 init clearLocals O_RDONLY (some [46])).run
              second.2).toOption.any (fun before => decide (before.1 = 1)) &&
            ((sys_write roomSuperblock init firstFd ⟨fun _ => 0, fun _ _ => none⟩ 16).run
              second.2).toOption.any fun third => decide (third.1 = 16) &&
                ((sys_open roomSuperblock 0x800 init clearLocals O_RDONLY (some [46])).run
                  third.2).toOption.any fun after => decide (after.1 = -1))) = true := by
    decide +kernel
  obtain ⟨_, k₁, made, rest⟩ := exists_of_any evaluated
  rw [Bool.and_eq_true, decide_eq_true_eq] at rest
  obtain ⟨rfl, rest⟩ := rest
  obtain ⟨_, k₂, opened, rest⟩ := exists_of_any rest
  rw [Bool.and_eq_true, Bool.and_eq_true, decide_eq_true_eq] at rest
  obtain ⟨⟨rfl, holds, writable, isDir⟩, before, rest⟩ := rest
  obtain ⟨_, k₄, found, isOne⟩ := exists_of_any before
  obtain ⟨_, k₃, wrote, rest⟩ := exists_of_any rest
  rw [Bool.and_eq_true, decide_eq_true_eq] at rest
  obtain ⟨rfl, after⟩ := rest
  obtain ⟨_, k₅, missing, isMinus⟩ := exists_of_any after
  obtain rfl := of_decide_eq_true isOne
  obtain rfl := of_decide_eq_true isMinus
  exact ⟨k₁, k₂, k₃, _, guarded_rootKernel, made, opened, holds, writable, isDir, ⟨k₄, found⟩, wrote,
    k₅, missing⟩

end Csc3150.Namespace
