/-
**The target of a symbolic link, written and read.**

`sys_symlink` stores the target with its terminating zero and then sets the size to the length without
it; `sys_open` reads that many bytes into a buffer that it does not clear.

* `followReads`, `openReads` — the loop of `sys_open` with the strings it looks up;
* `storeTarget_made` — what a successful `sys_symlink` stores;
* `followReads_exact` — the strings are the stored targets exactly when each of them ends inside the
  buffer.
-/

import Csc3150.Namespace.Following
import Mathlib.Data.List.TakeWhile

namespace Csc3150.Namespace

open ByteBuffer FileSystem Outcome Program Search
open Program.Script (atomic)

/-! ### The strings that are looked up -/

/-- What `sys_open` reads from a link: the bytes that it copies into the buffer, and the string that it looks
up then. -/
structure Read where
  link : Nat
  size : Nat
  string : List UInt8
  deriving DecidableEq

/-- The links of the loop in order. -/
abbrev Reads := List Read

section Functions

variable (sb : Superblock)

/-- `follow`, with the strings. -/
def followReads (cwd : Ip) (nm : Name) (nofollow : Bool) :
    (fuel retry : Nat) → (target : List UInt8) → Ip → Sys (Option (Ip × Nat) × Reads)
  | 0, retry, _, ip => return (some (ip, retry), [])
  | fuel + 1, retry, target, ip => do
    let i ← onFs₁ (inode ip)
    if i.type = T_SYMLINK ∧ nofollow = false ∧ retry < 10 then
      let result ← onFs₁ (Fs.readi sb ip (fun _ _ => false) 0 (UInt32.ofNat i.size))
      if result.1 ≠ i.size then
        onFs (iunlockput sb ip)
        end_op
        return (none, [])
      else
        onFs (iunlockput sb ip)
        let target := overwrite target 0 result.2
        match ← onFs (namei sb cwd (cstring target) nm) with
        | none =>
          end_op
          return (none, [⟨i.inum, i.size, cstring target⟩])
        | some next =>
          onFs₁ (ilock sb next)
          let j ← onFs₁ (inode next)
          let rest ← followReads cwd nm nofollow fuel (if j.type = T_SYMLINK then retry + 1 else retry)
            target next
          return (rest.1, ⟨i.inum, i.size, cstring target⟩ :: rest.2)
    else return (some (ip, retry), [])

/-- `openInode` up to the end of the loop, with the strings. -/
def openReads (O_NOFOLLOW : UInt32) (p : Pid) (locals : Locals) (omode : UInt32) (path : List UInt8) :
    Sys (Option (Ip × Nat) × Reads) := do
  match ← openStart sb p locals omode path with
  | none => return (none, [])
  | some ip =>
    let cwd ← myCwd p
    followReads sb cwd locals.name (hasFlag omode O_NOFOLLOW) 11 0 locals.target ip

/-- The test behind the loop. -/
def openTest : Option (Ip × Nat) → Sys (Option Ip)
  | none => return none
  | some (ip, retry) => do
    if 10 ≤ retry then
      onFs (iunlockput sb ip)
      end_op
      return none
    else return some ip

theorem followReads_leaves {sb : Superblock} {cwd ip : Ip} {nm : Name} {nofollow : Bool} {retry : Nat}
    {k : Kernel} (leaves : ¬ ((k.fs.inode ip).type = T_SYMLINK ∧ nofollow = false ∧ retry < 10))
    (fuel : Nat) (memory : List UInt8) :
    (followReads sb cwd nm nofollow fuel retry memory ip).run k = .ok ((some (ip, retry), []), k) := by
  cases fuel with
  | zero => rfl
  | succ fuel =>
    rw [followReads, Script.run_bind, bind_run (run_inode ip k), if_neg leaves]
    rfl

/-- The strings change nothing. -/
theorem followReads_forget (cwd : Ip) (nm : Name) (nofollow : Bool) (fuel : Nat) :
    ∀ (retry : Nat) (target : List UInt8) (ip : Ip),
      ((followReads sb cwd nm nofollow fuel retry target ip).run >>= fun r => pure r.1) =
        (follow sb cwd nm nofollow fuel retry target ip).run := by
  induction fuel with
  | zero => exact fun retry target ip => rfl
  | succ fuel ih =>
    intro retry target ip
    rw [followReads, follow, Script.run_bind, Script.run_bind, bind_assoc]
    refine congrArg _ (funext fun i => ?_)
    by_cases stays : i.type = T_SYMLINK ∧ nofollow = false ∧ retry < 10
    · rw [if_pos stays, if_pos stays, Script.run_bind, Script.run_bind, bind_assoc]
      refine congrArg _ (funext fun result => ?_)
      dsimp only
      by_cases short : result.1 ≠ i.size
      · rw [if_pos short, if_pos short]
        simp only [Script.run_bind, bind_assoc]
        rfl
      · rw [if_neg short, if_neg short]
        simp only [Script.run_bind, bind_assoc]
        refine congrArg _ (funext fun _ => congrArg _ (funext fun found => ?_))
        cases found with
        | none => rfl
        | some next =>
          simp only [Script.run_bind, bind_assoc]
          refine congrArg _ (funext fun _ => congrArg _ (funext fun j => ?_))
          rw [← ih]
          rfl
    · rw [if_neg stays, if_neg stays]
      rfl

theorem openReads_forget (O_NOFOLLOW : UInt32) (p : Pid) (locals : Locals) (omode : UInt32)
    (path : List UInt8) : (openInode sb O_NOFOLLOW p locals omode path).run =
      (openReads sb O_NOFOLLOW p locals omode path).run >>= fun r => (openTest sb r.1).run := by
  rw [openInode, openReads]
  simp only [Script.run_bind, bind_assoc]
  refine congrArg _ (funext fun first => ?_)
  cases first with
  | none => rfl
  | some ip =>
    simp only [Script.run_bind, bind_assoc]
    refine congrArg _ (funext fun cwd => ?_)
    rw [← followReads_forget, bind_assoc]
    refine congrArg _ (funext fun result => ?_)
    rw [pure_bind]
    obtain ⟨last, reads⟩ := result
    cases last with
    | none => rfl
    | some last => rfl

end Functions

/-! ### The string behind the target -/

/-- A buffer with the target written over its beginning holds the target as a string if and only if the
target ends by itself, or the byte behind it is zero. -/
theorem cstring_overwrite_iff {memory bytes : List UInt8} :
    cstring (overwrite memory 0 bytes) = cstring bytes ↔
      0 ∈ bytes ∨ memory[bytes.length]?.getD 0 = 0 := by
  have parts : overwrite memory 0 bytes = bytes ++ memory.drop bytes.length := by
    rw [overwrite, List.take_zero, List.nil_append, Nat.zero_add]
  rw [parts, cstring, cstring]
  by_cases ends : 0 ∈ bytes
  · have stops : ¬ (bytes.takeWhile (· ≠ 0)).length = bytes.length := by
      intro whole
      have all := List.takeWhile_eq_self_iff.mp ((List.takeWhile_prefix _).eq_of_length whole)
      exact absurd (all 0 ends) (by decide)
    rw [List.takeWhile_append, if_neg stops]
    exact iff_of_true rfl (Or.inl ends)
  · have all : ∀ b ∈ bytes, decide (b ≠ 0) = true := fun b member =>
      decide_eq_true fun zero => ends (zero ▸ member)
    rw [List.takeWhile_append_of_pos all, List.takeWhile_eq_self_iff.mpr all, or_iff_right ends,
      List.append_right_eq_self, ← List.head?_drop]
    cases memory.drop bytes.length with
    | nil => exact iff_of_true rfl rfl
    | cons b rest =>
      rw [List.head?_cons, Option.getD_some]
      by_cases zero : b = 0
      · rw [List.takeWhile_cons_of_neg (by rw [zero]; decide)]
        exact iff_of_true rfl zero
      · have kept : decide (b ≠ 0) = true := decide_eq_true zero
        rw [List.takeWhile_cons, if_pos kept]
        exact iff_of_false (List.cons_ne_nil _ _) zero

/-- Reading these bytes into the buffer leaves a string in it: they fit, and they end by themselves, or the
next byte lies in the buffer and is zero. -/
def EndsInside (memory bytes : List UInt8) : Prop :=
  bytes.length ≤ MAXPATH ∧
    (0 ∈ bytes ∨ bytes.length < MAXPATH ∧ memory[bytes.length]?.getD 0 = 0)

instance (memory bytes : List UInt8) : Decidable (EndsInside memory bytes) :=
  inferInstanceAs (Decidable (_ ∧ (_ ∨ _ ∧ _)))

/-- Each of the next links ends inside the buffer, which holds what the earlier reads have left. -/
def Terminated (node : Nat → Option Node) (home : Nat) :
    (count : Nat) → (memory : List UInt8) → (n : Nat) → Prop
  | 0, _, _ => True
  | count + 1, memory, n => ∀ x, node n = some x → x.type = T_SYMLINK → EndsInside memory x.bytes ∧
      ∀ m, hop node home n = some m → Terminated node home count (overwrite memory 0 x.bytes) m

/-- Every read fits the buffer, and the string that was looked up ends inside it and is the stored target of
the link. -/
def ReadExactly (node : Nat → Option Node) (reads : Reads) : Prop :=
  ∀ read ∈ reads, read.size ≤ MAXPATH ∧ read.string.length < MAXPATH ∧
    ∃ x, node read.link = some x ∧ read.string = x.target

theorem length_cstring_lt {bytes : List UInt8} (ends : 0 ∈ bytes) : (cstring bytes).length < bytes.length := by
  refine lt_of_le_of_ne (List.takeWhile_prefix _).length_le fun whole => ?_
  have all := List.takeWhile_eq_self_iff.mp ((List.takeWhile_prefix _).eq_of_length whole)
  exact absurd (all 0 ends) (by decide)

theorem cstring_of_no_zero {target : List UInt8} (plain : 0 ∉ target) : cstring target = target :=
  List.takeWhile_eq_self_iff.mpr fun _ member => decide_eq_true fun zero => plain (zero ▸ member)

/-- The string that is looked up is the target, and ends inside the buffer, exactly then. -/
theorem endsInside_iff {memory bytes : List UInt8} : EndsInside memory bytes ↔
    bytes.length ≤ MAXPATH ∧ (cstring (overwrite memory 0 bytes)).length < MAXPATH ∧
      cstring (overwrite memory 0 bytes) = cstring bytes := by
  rw [EndsInside]
  refine and_congr_right fun fits => ?_
  rw [cstring_overwrite_iff]
  by_cases ends : 0 ∈ bytes
  · have same : cstring (overwrite memory 0 bytes) = cstring bytes :=
      cstring_overwrite_iff.mpr (Or.inl ends)
    rw [same]
    exact iff_of_true (Or.inl ends) ⟨(length_cstring_lt ends).trans_le fits, Or.inl ends⟩
  · rw [or_iff_right ends, or_iff_right ends]
    refine and_congr_left fun zero => ?_
    rw [cstring_overwrite_iff.mpr (Or.inr zero), cstring_of_no_zero ends]

theorem terminated_of_not_link {node : Nat → Option Node} {home count n : Nat} {memory : List UInt8}
    (other : ¬ IsLink node n) : Terminated node home count memory n := by
  cases count with
  | zero => trivial
  | succ count => exact fun x isNode link => absurd ⟨x, isNode, link⟩ other

theorem terminated_succ {node : Nat → Option Node} {home count n : Nat} {memory : List UInt8} {x : Node}
    (isNode : node n = some x) (link : x.type = T_SYMLINK) :
    Terminated node home (count + 1) memory n ↔ EndsInside memory x.bytes ∧
        ∀ m, hop node home n = some m → Terminated node home count (overwrite memory 0 x.bytes) m := by
  refine ⟨fun ends => ends x isNode link, fun ends y isY _ => ?_⟩
  rw [isNode] at isY
  cases isY
  exact ends

theorem readExactly_cons {node : Nat → Option Node} {n : Nat} {x : Node} (isNode : node n = some x)
    {size : Nat} {string : List UInt8} {rest : Reads} :
    ReadExactly node (⟨n, size, string⟩ :: rest) ↔
      (size ≤ MAXPATH ∧ string.length < MAXPATH ∧ string = x.target) ∧ ReadExactly node rest := by
  rw [ReadExactly, List.forall_mem_cons]
  refine and_congr_left fun _ => and_congr_right fun _ => and_congr_right fun _ =>
    ⟨fun stored => ?_, fun same => ⟨x, isNode, same⟩⟩
  obtain ⟨y, isY, same⟩ := stored
  rw [isNode] at isY
  cases isY
  exact same

/-! ### Round by round -/

section Exact

variable {sb : Superblock} {uses : Ip → Int} {node : Nat → Option Node} {home n m : Nat} {cwd : Ip}
  {nm : Name} {stops : Halt → Prop}

variable (inside : ROOTINO < sb.ninodes) (root : node ROOTINO ≠ none)
  (entered : ∀ n, Entered node n → node n ≠ none) (used : 0 < uses cwd)
  (full : NearlyFull uses [] → stops .igetNoInodes)

include inside root entered used full

/-- The loop looks up the stored targets exactly when the buffer is terminated at each link. -/
theorem followReads_exact :
    ∀ (fuel retry : Nat) (memory : List UInt8) (i : Ip) (name : Ip → Nat) (k : Kernel),
    name cwd = home → At sb uses ⟨[i], [i], []⟩ name node k.fs → 10 - retry ≤ fuel →
    Meets (followReads sb cwd nm false fuel retry memory i).run k stops fun r _ =>
      (∀ x, node (name i) = some x → x.type = T_SYMLINK → retry < 10 →
        ∃ string rest, r.2 = ⟨name i, x.bytes.length, string⟩ :: rest) ∧
      (ReadExactly node r.2 ↔ Terminated node home (10 - retry) memory (name i)) := by
  have nothing : ReadExactly node [] := fun read member => absurd member List.not_mem_nil
  intro fuel
  induction fuel with
  | zero =>
    intro retry memory i name k _ here enough
    have spent : 10 - retry = 0 := Nat.le_zero.mp enough
    rw [followReads, spent]
    exact .done ⟨fun _ _ _ few => by omega, iff_of_true nothing trivial⟩
  | succ fuel ih =>
    intro retry memory i name k isHome here enough
    obtain ⟨x, isNode, shows, -⟩ := here.exists_node (i := i) List.mem_cons_self
    have type : (k.fs.inode i).type = x.type := shows.type
    have number : (k.fs.inode i).inum = name i := here.named (here.ref_pos_of_held List.mem_cons_self)
    rw [followReads]
    refine .seq_run (run_inode i k) ?_
    by_cases stays : (k.fs.inode i).type = T_SYMLINK ∧ false = false ∧ retry < 10
    · rw [if_pos stays]
      have link : x.type = T_SYMLINK := type ▸ stays.1
      have few := stays.2.2
      obtain ⟨left, isLeft⟩ : ∃ left, 10 - retry = left + 1 := ⟨9 - retry, by omega⟩
      refine .seq (meets_onFs₁ (here.readi_whole (i := i) List.mem_cons_self isNode)) fun r k₁ got => ?_
      obtain ⟨same, rfl⟩ := got
      dsimp only
      rw [if_neg (not_not.mpr rfl), isLeft]
      rw [← same] at here
      -- the first read is what `Terminated` says about this link
      have first : ∀ {rest : Reads} {terminated : Prop},
          (cstring (overwrite memory 0 x.bytes) = x.target → (ReadExactly node rest ↔ terminated)) →
          (ReadExactly node (⟨name i, x.bytes.length, cstring (overwrite memory 0 x.bytes)⟩ :: rest) ↔
            EndsInside memory x.bytes ∧ terminated) := by
        intro rest terminated later
        rw [readExactly_cons isNode, endsInside_iff]
        exact and_congr_right fun stored => later stored.2.2
      have begins : ∀ {string : List UInt8} {rest : Reads} (y : Node), node (name i) = some y →
          y.type = T_SYMLINK → retry < 10 → ∃ string' rest',
            (⟨name i, x.bytes.length, string⟩ : Read) :: rest = ⟨name i, y.bytes.length, string'⟩ :: rest' := by
        intro string rest y isY _ _
        rw [isNode] at isY
        cases isY
        exact ⟨string, rest, rfl⟩
      refine .seq (meets_onFs (here.iunlockput_linked List.not_mem_nil)) fun _ k₂ dropped => ?_
      refine .seq (meets_onFs (namei_locks inside root entered used full dropped isHome _))
        fun r k₃ found => ?_
      have isHop : hop node home (name i) = _ := hop_eq isNode link
      rw [number, shows.size, terminated_succ isNode link]
      rcases found with ⟨rfl, leads⟩ | ⟨j, name', rfl, leads, isHome', allocated, held⟩
      · refine .seq_run rfl (.done ⟨begins, first fun string => iff_of_true nothing ?_⟩)
        intro m isM
        rw [isHop, ← string, leads] at isM
        cases isM
      · refine .seq (meets_onFs₁ (held.ilock (held.ref_pos_of_held List.mem_cons_self) List.not_mem_nil
          fun absent => absurd absent allocated)) fun _ k₄ locked => ?_
        obtain ⟨-, locked⟩ := locked
        refine .seq_run (run_inode j k₄) ?_
        obtain ⟨y, isNode', shows', -⟩ := locked.exists_node (i := j) List.mem_cons_self
        have type' : (k₄.fs.inode j).type = y.type := shows'.type
        have again : (k₄.fs.inode j).type = T_SYMLINK ↔ IsLink node (name' j) := by
          rw [type']
          refine ⟨fun isLink => ⟨y, isNode', isLink⟩, fun isLink => ?_⟩
          obtain ⟨z, isZ, isLink⟩ := isLink
          rw [isNode'] at isZ
          cases isZ
          exact isLink
        have leadsTo : ∀ {terminated : Nat → Prop},
            cstring (overwrite memory 0 x.bytes) = x.target →
              (terminated (name' j) ↔ ∀ m, hop node home (name i) = some m → terminated m) := by
          intro terminated string
          rw [← string] at isHop
          rw [isHop.trans leads]
          exact ⟨fun holds m isM => Option.some.inj isM ▸ holds, fun all => all _ rfl⟩
        by_cases isLink : IsLink node (name' j)
        · rw [if_pos (again.mpr isLink)]
          refine .seq (ih _ _ j name' k₄ isHome' locked (by omega)) fun r k₅ rest => .done
            ⟨begins, first fun string => rest.2.trans ?_⟩
          rw [show 10 - (retry + 1) = left by omega]
          exact leadsTo string
        · rw [if_neg (mt again.mp isLink)]
          refine .seq_run (followReads_leaves (fun more => isLink (again.mp more.1)) fuel _)
            (.done ⟨begins, first fun string => iff_of_true nothing ?_⟩)
          exact (leadsTo string).mp (terminated_of_not_link isLink)
    · rw [if_neg stays]
      have ends : IsLink node (name i) → 10 ≤ retry := by
        intro isLink
        obtain ⟨y, isY, link⟩ := isLink
        rw [isNode] at isY
        cases isY
        by_contra more
        exact stays ⟨type.trans link, rfl, by omega⟩
      refine .done ⟨fun y isY link few => absurd (ends ⟨y, isY, link⟩) (by omega), iff_of_true nothing ?_⟩
      by_cases isLink : IsLink node (name i)
      · have spent : 10 - retry = 0 := by
          have := ends isLink
          omega
        rw [spent]
        trivial
      · exact terminated_of_not_link isLink

end Exact

/-! ### What `sys_symlink` stores -/

section Stored

variable {sb : Superblock} {uses : Ip → Int} {node : Nat → Option Node} {name : Ip → Nat} {i : Ip}
  {x : Node} {k : Kernel} {stops : Halt → Prop} {target : List UInt8} {held locks : List Ip}
  {loose : List Nat}

/-- Cutting a locked file. -/
theorem At.cut {fs : Fs} (here : At sb uses ⟨held, locks, loose⟩ name node fs) (lock : i ∈ locks)
    (isNode : node (name i) = some x) (file : x.type ≠ T_DIR) {size : Nat} (less : size ≤ x.bytes.length)
    (linked : x.nlink ≠ 0 ∨ name i ∈ loose ∨ 0 < uses i) :
    Meets (Fs.iupdate sb i) (fs.setInode i { fs.inode i with size := size }) stops fun _ fs' =>
      At sb uses ⟨held, locks, loose⟩ name
        (Function.update node (name i) (some { x with bytes := x.bytes.take size })) fs' := by
  have isLocked := (here.locked i).mpr lock
  have cached := here.sound.cached_of_locked isLocked
  have number := here.named (here.sound.table.locked isLocked).1
  obtain ⟨shows, bytes⟩ := here.shows lock isNode
  have image := here.sound.image
  obtain ⟨dip, isDip⟩ : ∃ dip : Dinode, dip = { (fs.inode i).toDinode with size := size } := ⟨_, rfl⟩
  have fields : dip.type = (fs.inode i).type ∧ dip.size = size ∧ dip.addrs = (fs.inode i).addrs := by
    rw [isDip]
    exact ⟨rfl, rfl, rfl⟩
  have below : size ≤ (dinode sb fs.disk (fs.inode i).inum).size := by
    rw [← cached.same, shows.size]
    exact less
  have addrs : dip.addrs = (dinode sb fs.disk (fs.inode i).inum).addrs := by
    rw [fields.2.2, cached.same]
  have type : dip.type = (dinode sb fs.disk (fs.inode i).inum).type := by
    rw [fields.1, cached.same]
  have oldFits := dinode_fits sb fs.disk (fs.inode i).inum
  have owned : Owned sb fs.disk (Function.update (dinode sb fs.disk) (fs.inode i).inum dip) := by
    refine image.owned.congr fun m _ => ?_
    by_cases isI : m = (fs.inode i).inum
    · rw [isI, Function.update_self]
      exact ⟨type, addrs⟩
    · rw [Function.update_of_ne isI]
      exact ⟨rfl, rfl⟩
  obtain ⟨image', touches, own⟩ := image.replace dip cached.inUse.2.1
    ⟨fields.2.1 ▸ below.trans_lt oldFits.size_lt, addrs ▸ oldFits.addrs_lt⟩ owned
    fun _ bn small inSize => by
      rw [addrs]
      rw [fields.2.1] at inSize
      exact image.filled _ cached.inUse bn small (inSize.trans_le below)
  have inUse : InUse sb (dinode sb (writeDinode sb fs.disk (fs.inode i).inum dip))
      (fs.inode i).inum :=
    ⟨cached.inUse.1, cached.inUse.2.1, by rw [own, type]; exact cached.inUse.2.2⟩
  have contents : content sb (writeDinode sb fs.disk (fs.inode i).inum dip) (fs.inode i).inum =
      x.bytes.take size := by
    rw [content_writeDinode image cached.inUse own addrs (fields.2.1 ▸ below), number, ← bytes,
      fields.2.1]
  have entry : { fs.inode i with size := size } = { fs.inode i with toDinode := dip } := by
    rw [isDip]
  have run : Fs.iupdate sb i (fs.setInode i { fs.inode i with toDinode := dip }) =
      .ok ((), fs.put i (writeDinode sb fs.disk (fs.inode i).inum dip)
        { fs.inode i with toDinode := dip }) := by
    rw [Fs.iupdate, Fs.setInode_self]
    rfl
  have isShown : nodeOf dip (x.bytes.take size) = { x with bytes := x.bytes.take size } := by
    rw [isDip, ← shows.type, ← shows.major, ← shows.minor, ← shows.nlink]
    rfl
  rw [entry]
  refine .of_ok run (here.step lock (here.sound.step isLocked image' touches ⟨inUse, own.symm⟩
    ⟨rfl, rfl⟩ ⟨rfl, rfl⟩) ⟨rfl, rfl, rfl, rfl⟩ (number ▸ touches) ?_ ⟨?_, ?_, ?_⟩ linked)
  · rw [← number, nodeAt_of_inUse inUse, own, contents, isShown]
  · exact (here.ok isNode).type
  · exact (List.length_take_le' _ _).trans (here.ok isNode).small
  · exact fun isDir => absurd isDir file

/-- When it does not fail, the inode holds the target. -/
theorem At.storeTarget_made (here : At sb uses ⟨[i], [i], []⟩ name node k.fs)
    (isNode : node (name i) = some x) (file : x.type ≠ T_DIR) (blank : x.bytes = [])
    (empty : (k.fs.inode i).addrs = fun _ => 0) (short : target.length < MAXPATH)
    (linked : x.nlink ≠ 0) : Meets (storeTarget sb target i).run k stops fun r k' => r = 0 →
      At sb uses ⟨[], [], []⟩ name (Function.update node (name i) (some { x with bytes := target }))
        k'.fs := by
  have length : (target ++ [0]).length = target.length + 1 := List.length_append
  have small : target.length + 1 ≤ BSIZE := le_trans short (by decide)
  have write : Meets (Fs.writei sb i (.kernel (target ++ [0])) 0 _) k.fs stops _ :=
    here.writei_fresh List.mem_cons_self isNode file blank empty
      (by rw [length]; exact Nat.succ_pos _) (by rw [length]; exact small)
  rw [length] at write
  refine .seq (meets_onFs₁ write) fun r k₁ wrote => ?_
  obtain ⟨tot, rfl, -, -, after⟩ := wrote
  by_cases whole : (tot : Int) = (target.length + 1 : Nat)
  · rw [if_neg (not_not.mpr whole)]
    have all : (target ++ [0]).take tot = target ++ [0] := by
      rw [Int.ofNat.inj whole, ← length, List.take_length]
    rw [all] at after
    have within : target.length ≤ (target ++ [0]).length := length ▸ Nat.le_succ _
    have cut : Meets (Fs.iupdate sb i) (k₁.fs.setInode i
        { k₁.fs.inode i with size := target.length }) stops _ :=
      after.cut List.mem_cons_self (Function.update_self _ _ _) file within (Or.inl linked)
    refine .seq_run rfl (.seq (meets_onFs₁ (k := { k₁ with fs := _ }) cut) fun _ k₂ last => ?_)
    refine .seq (meets_onFs (last.iunlockput_linked List.not_mem_nil)) fun _ k₃ idle => ?_
    refine .seq_run rfl (.done fun _ => ?_)
    rw [Function.update_idem, List.take_left] at idle
    exact idle
  · rw [if_pos whole]
    refine .seq (meets_onFs (after.iunlockput_linked List.not_mem_nil)) fun _ k₂ _ => ?_
    exact .seq_run rfl (.done fun zero => absurd zero (by decide))

end Stored

/-! ### An image with free blocks -/

section WithRoom

variable {sb : Superblock} {fs : Fs} {size nblocks : Nat}
  (layout : Superblock.WellFormed { sb with size, nblocks }) (begins : size - nblocks = sb.dataStart)
  (more : sb.size ≤ size) (room : ∀ b, sb.size ≤ b → b < size → marked sb fs.disk b = false)

include layout begins more room

/-- Free blocks behind the last one change nothing. -/
theorem sound_withRoom (here : fs.Sound sb) : fs.Sound { sb with size, nblocks } := by
  obtain ⟨⟨-, owned, filled⟩, table⟩ := here
  have lives : ∀ b, b ∈ liveBlocks { sb with size, nblocks } fs.disk ↔ b ∈ liveBlocks sb fs.disk := by
    intro b
    show size - nblocks ≤ b ∧ b < size ∧ marked sb fs.disk b = true ↔
      sb.dataStart ≤ b ∧ b < sb.size ∧ marked sb fs.disk b = true
    rw [begins]
    refine and_congr_right fun _ => ⟨fun inside => ⟨?_, inside.2⟩,
      fun inside => ⟨inside.1.trans_le more, inside.2⟩⟩
    by_contra past
    rw [room b (Nat.le_of_not_lt past) inside.1] at inside
    exact Bool.false_ne_true inside.2
  exact ⟨⟨layout, ⟨fun b below => owned.metadata b (lt_of_lt_of_eq below begins),
    owned.exact.congr (fun _ => rfl) lives⟩, filled⟩, table.ref_nonneg, table.named, table.unique,
    fun used valid => ⟨(table.cached used valid).inUse, (table.cached used valid).same⟩, table.locked⟩

theorem At.withRoom {uses : Ip → Int} {hand : Hand} {name : Ip → Nat} {node : Nat → Option Node}
    (here : At sb uses hand name node fs) : At { sb with size, nblocks } uses hand name node fs where
  sound := sound_withRoom layout begins more room here.sound
  nodes := here.nodes
  ok isNode := ⟨(here.ok isNode).type, (here.ok isNode).small, fun isDir =>
    ⟨((here.ok isNode).dir isDir).whole, ((here.ok isNode).dir isDir).inside,
      ((here.ok isNode).dir isDir).apart⟩⟩
  nonneg := here.nonneg
  refs := here.refs
  locked := here.locked
  named := here.named
  used := here.used
  kept := here.kept
  loose := here.loose
  seen := here.seen

end WithRoom

/-- The layout of `rootSuperblock` with two more blocks, which are free on `rootDisk`. -/
def roomSuperblock : Superblock := { rootSuperblock with size := 7, nblocks := 3 }

theorem roomSuperblock_wellFormed : roomSuperblock.WellFormed := by
  refine ⟨rootSuperblock_wellFormed.inodes_below, fun b inside => ?_, by decide⟩
  have small : b < 7 := inside
  interval_cases b <;> decide

theorem roomSuperblock_free : ∀ b, rootSuperblock.size ≤ b → b < 7 →
    marked rootSuperblock rootKernel.fs.disk b = false := by
  intro b above inside
  have above : 5 ≤ b := above
  interval_cases b <;> decide +kernel

/-- `init`, the first process. -/
def init : Pid := ⟨0, by decide⟩

/-- A cleared buffer. -/
def clearLocals : Locals := ⟨fun _ => 0, List.replicate MAXPATH 0⟩

end Csc3150.Namespace
