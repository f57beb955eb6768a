/-
**Following symbolic links in `sys_open`.**

* `Hops` — where a chain of links leads: every link to where its stored target resolves, up to an inode
  that is no link;
* `follow_bounded` — the loop performs at most ten hops, on every state;
* `follow_exact` — its result, hop by hop;
* `symlink_following_exact` — `sys_open` gets past the loop exactly when a chain of at most ten hops
  ends, with its end; otherwise it returns -1;
* `full_table_open_panics` — a table without a free entry.
-/

import Csc3150.Namespace.Lookup

namespace Csc3150.Namespace

open ByteBuffer FileSystem Outcome Program Search
open Program.Script (atomic)

/-! ### Chains of links -/

section Chains

variable (node : Nat → Option Node) (home : Nat)

/-- A symbolic link. -/
def IsLink (n : Nat) : Prop := ∃ x, node n = some x ∧ x.type = T_SYMLINK

/-- The stored target of a link. -/
def Node.target (x : Node) : List UInt8 := cstring x.bytes

/-- Where a path starts, for a process in the directory `home`. -/
def start (path : List UInt8) : Nat := if path.headD 0 = slash then ROOTINO else home

/-- Where the target of the link `n` resolves. -/
def hop (n : Nat) : Option Nat :=
  (node n).bind fun x => if x.type = T_SYMLINK
    then resolve node (start home x.target) (components x.target) else none

/-- Following `count` links from `n` on leads to `m`, which is no link. -/
inductive Hops : (count n m : Nat) → Prop where
  | here {n : Nat} (stops : ¬ IsLink node n) : Hops 0 n n
  | next {count n middle m : Nat} (first : hop node home n = some middle)
      (rest : Hops count middle m) : Hops (count + 1) n m

variable {node home} {count count' n m m' : Nat}

theorem isLink_of_hop (first : hop node home n = some m) : IsLink node n := by
  obtain ⟨x, isNode, leads⟩ := Option.bind_eq_some_iff.mp first
  refine ⟨x, isNode, ?_⟩
  by_contra other
  rw [if_neg other] at leads
  cases leads

theorem hop_eq {x : Node} (isNode : node n = some x) (link : x.type = T_SYMLINK) :
    hop node home n = resolve node (start home x.target) (components x.target) := by
  rw [hop, isNode, Option.bind_some, if_pos link]

/-- A chain of links has one end. -/
theorem Hops.unique (chain : Hops node home count n m) (chain' : Hops node home count' n m') :
    m = m' := by
  induction chain generalizing count' with
  | here stops =>
    cases chain' with
    | here => rfl
    | next first => exact absurd (isLink_of_hop first) stops
  | next first rest ih =>
    cases chain' with
    | here stops => exact absurd (isLink_of_hop first) stops
    | next first' rest' =>
      obtain rfl := Option.some.inj (first.symm.trans first')
      exact ih rest'

theorem hops_of_hop (first : hop node home n = some m) {l : Nat} :
    Hops node home (count + 1) n l ↔ Hops node home count m l := by
  constructor
  · intro chain
    cases chain with
    | next first' rest => rwa [Option.some.inj (first.symm.trans first')]
  · exact Hops.next first

/-- Without a short chain from the target of a link, there is none from the link. -/
theorem no_hops_of_hop (first : hop node home n = some m) {limit : Nat}
    (none : ∀ c l, c ≤ limit → ¬ Hops node home c m l) :
    ∀ c l, c ≤ limit + 1 → ¬ Hops node home c n l := by
  intro c l short chain
  cases c with
  | zero =>
    cases chain with
    | here stops => exact stops (isLink_of_hop first)
  | succ c => exact none c l (Nat.le_of_succ_le_succ short) ((hops_of_hop first).mp chain)

/-- The string read from each of the next links is its stored target: what the buffer held behind the
target does not extend it. -/
def ReadsTargets (node : Nat → Option Node) (home : Nat) :
    (count : Nat) → (memory : List UInt8) → (n : Nat) → Prop
  | 0, _, _ => True
  | count + 1, memory, n => ∀ x, node n = some x → x.type = T_SYMLINK →
    cstring (overwrite memory 0 x.bytes) = x.target ∧
      ∀ m, hop node home n = some m → ReadsTargets node home count (overwrite memory 0 x.bytes) m

end Chains

/-! ### At most ten hops -/

/-- What is performed on the file system leaves the processes alone. -/
theorem onFs_proc {α : Type} (x : FsScript α) (k : Kernel) :
    Ensures (onFs x).run k fun _ k' => k'.proc = k.proc := by
  intro a k' run
  rw [run_onFs] at run
  obtain ⟨result, -, rest⟩ := bind_eq_ok.mp run
  cases rest
  rfl

theorem run_inode (ip : Ip) (k : Kernel) : (onFs₁ (inode ip)).run k = .ok (k.fs.inode ip, k) := rfl

/-- Where the condition of the loop fails, the loop ends. -/
theorem follow_leaves {sb : Superblock} {cwd ip : Ip} {nm : Name} {nofollow : Bool} {retry : Nat}
    {k : Kernel} (leaves : ¬ ((k.fs.inode ip).type = T_SYMLINK ∧ nofollow = false ∧ retry < 10))
    (fuel : Nat) (memory : List UInt8) :
    (follow sb cwd nm nofollow fuel retry memory ip).run k = .ok (some (ip, retry), k) := by
  cases fuel with
  | zero => rfl
  | succ fuel =>
    rw [follow, Script.run_bind, bind_run (run_inode ip k), if_neg leaves]
    rfl

/-- The loop leaves by its condition within ten rounds, on every state: more rounds change nothing. -/
theorem follow_bounded {sb : Superblock} {cwd : Ip} {nm : Name} {nofollow : Bool} (extra : Nat) :
    ∀ (fuel retry : Nat) (memory : List UInt8) (ip : Ip) (k : Kernel),
      ((k.fs.inode ip).type = T_SYMLINK → 10 - retry ≤ fuel) →
      (follow sb cwd nm nofollow (fuel + extra) retry memory ip).run k =
        (follow sb cwd nm nofollow fuel retry memory ip).run k := by
  intro fuel
  induction fuel with
  | zero =>
    intro retry memory ip k enough
    have leaves : ¬ ((k.fs.inode ip).type = T_SYMLINK ∧ nofollow = false ∧ retry < 10) := by
      intro stays
      have := enough stays.1
      omega
    rw [follow_leaves leaves, follow_leaves leaves]
  | succ fuel ih =>
    intro retry memory ip k enough
    by_cases stays : (k.fs.inode ip).type = T_SYMLINK ∧ nofollow = false ∧ retry < 10
    · rw [Nat.succ_add, follow, follow, Script.run_bind, Script.run_bind,
        bind_run (run_inode ip k), bind_run (run_inode ip k),
        if_pos stays, if_pos stays]
      refine Script.run_bind_congr fun result k₁ _ => ?_
      dsimp only
      by_cases short : result.1 ≠ (k.fs.inode ip).size
      · rw [if_pos short, if_pos short]
      · rw [if_neg short, if_neg short]
        refine Script.run_bind_congr fun _ k₂ _ => Script.run_bind_congr fun r k₃ _ => ?_
        cases r with
        | none => rfl
        | some next =>
          refine Script.run_bind_congr fun _ k₄ _ => Script.run_bind_congr fun i k₅ read => ?_
          have isEntry : i = k₅.fs.inode next := by
            cases read
            rfl
          refine ih _ _ _ _ fun link => ?_
          have enough := enough stays.1
          rw [if_pos (isEntry ▸ link)]
          omega
    · rw [follow_leaves stays, follow_leaves stays]

/-! ### Hop by hop -/

/-- Reading a locked inode as a whole, as `sys_open` does. -/
theorem At.readi_whole {sb : Superblock} {uses : Ip → Int} {hand : Hand} {name : Ip → Nat}
    {node : Nat → Option Node} {fs : Fs} {i : Ip} {x : Node} {stops : Halt → Prop}
    (here : At sb uses hand name node fs) (lock : i ∈ hand.locks) (isNode : node (name i) = some x) :
    Meets (Fs.readi sb i (fun _ _ => false) 0 (UInt32.ofNat (fs.inode i).size)) fs stops fun r fs' =>
      fs' = fs ∧ r = (((fs.inode i).size : Int), x.bytes) := by
  obtain ⟨x', isNode', shows, -⟩ := here.exists_node lock
  rw [isNode] at isNode'
  cases isNode'
  have total : MAXFILE * BSIZE < 2 ^ 32 := by decide
  have size : (UInt32.ofNat (fs.inode i).size).toNat = x.bytes.length := by
    rw [shows.size]
    exact UInt32.toNat_ofNat_of_lt' (lt_of_le_of_lt (here.ok isNode).small total)
  have amount : readable x.bytes.length 0 (UInt32.ofNat (fs.inode i).size) = x.bytes.length := by
    have small := (here.ok isNode).small
    have zero : (0 : UInt32).toNat = 0 := rfl
    rw [readable, size, zero, if_neg (by omega)]
    omega
  refine (here.readi lock isNode _ _).mono fun r fs' got => ?_
  obtain ⟨same, whole, bytes⟩ := got
  rw [amount] at whole bytes
  have count : ((fs.inode i).size : Int) = x.bytes.length := congrArg _ shows.size
  exact ⟨same, Prod.ext (whole.trans count.symm) (bytes.trans List.take_length)⟩

section Exact

variable {sb : Superblock} {uses : Ip → Int} {node : Nat → Option Node} {home n m : Nat} {cwd : Ip}
  {nm : Name} {stops : Halt → Prop} {memory : List UInt8} {count : Nat}

theorem readsTargets_of_not_link (other : ¬ IsLink node n) : ReadsTargets node home count memory n := by
  cases count with
  | zero => trivial
  | succ count => exact fun x isNode link => absurd ⟨x, isNode, link⟩ other

/-- A path leads to an allocated inode. -/
theorem resolve_ne_none (entered : ∀ n, Entered node n → node n ≠ none) (allocated : node n ≠ none)
    {cs : List (List UInt8)} (leads : resolve node n cs = some m) : node m ≠ none := by
  induction cs generalizing n with
  | nil =>
    cases leads
    exact allocated
  | cons c rest ih =>
    obtain ⟨next, isChild, leads⟩ := Option.bind_eq_some_iff.mp leads
    refine ih (entered next ?_) leads
    obtain ⟨x, isNode, inside⟩ := Option.bind_eq_some_iff.mp isChild
    split_ifs at inside with isDir
    obtain ⟨⟨next', k⟩, found, rfl⟩ := Option.map_eq_some_iff.mp inside
    exact ⟨n, x, k, c, isNode, isDir, (lookup_eq_some.mp found).1⟩

variable (inside : ROOTINO < sb.ninodes) (root : node ROOTINO ≠ none)
  (entered : ∀ n, Entered node n → node n ≠ none) (used : 0 < uses cwd)
  (full : NearlyFull uses [] → stops .igetNoInodes)

include inside root entered used full

/-- `namei` and `ilock`, as `sys_open` calls them. -/
theorem namei_locks {name : Ip → Nat} {fs : Fs} (here : At sb uses ⟨[], [], []⟩ name node fs)
    (isHome : name cwd = home) (path : List UInt8) :
    Meets (namei sb cwd path nm).run fs stops fun r fs' =>
      (r = none ∧ resolve node (start home path) (components path) = none) ∨
      ∃ i name', r = some i ∧ resolve node (start home path) (components path) = some (name' i) ∧
        name' cwd = home ∧ node (name' i) ≠ none ∧ At sb uses ⟨[i], [], []⟩ name' node fs' := by
  have typed : ∀ n, n = ROOTINO ∨ Entered node n → node n = none → stops .ilockNoType := by
    intro n known absent
    rcases known with rfl | known
    · exact absurd absent root
    · exact absurd absent (entered n known)
  refine .seq (here.namex full typed inside used) fun r fs' walked => .done ?_
  obtain ⟨name', frame, reached, -, after⟩ := walked
  have leads : resolve node (At.origin name cwd path) (components path) = r.1.map name' := reached
  have sameStart : At.origin name cwd path = start home path := by
    rw [At.origin, start, isHome]
  rw [sameStart] at leads
  cases isFound : r.1 with
  | none =>
    rw [isFound] at leads
    exact Or.inl ⟨rfl, leads⟩
  | some i =>
    rw [isFound] at leads after
    have allocated : node (start home path) ≠ none := by
      rw [start]
      split_ifs
      · exact root
      · exact isHome ▸ here.used used
    exact Or.inr ⟨i, name', rfl, leads, (frame cwd (Or.inl used)).trans isHome,
      resolve_ne_none entered allocated leads, after⟩

/-- The loop of `sys_open` follows the chain of links as far as its count allows. -/
theorem follow_exact :
    ∀ (fuel retry : Nat) (memory : List UInt8) (i : Ip) (name : Ip → Nat) (k : Kernel),
    name cwd = home → At sb uses ⟨[i], [i], []⟩ name node k.fs → 10 - retry ≤ fuel →
    (¬ IsLink node (name i) → retry < 10) → ReadsTargets node home (10 - retry) memory (name i) →
    Meets (follow sb cwd nm false fuel retry memory i).run k stops fun r k' =>
      (r = none ∧ ∀ c m, c ≤ 10 - retry → ¬ Hops node home c (name i) m) ∨
      ∃ j retry' name', r = some (j, retry') ∧ At sb uses ⟨[j], [j], []⟩ name' node k'.fs ∧
        ((10 ≤ retry' ∧ ∀ c m, c ≤ 10 - retry → ¬ Hops node home c (name i) m) ∨
        (retry' < 10 ∧ ∃ c, c ≤ 10 - retry ∧ Hops node home c (name i) (name' j))) := by
  -- the loop ends: at an inode that is no link, or with its count used up
  have leaves : ∀ {retry : Nat} {i : Ip} {name : Ip → Nat} {k : Kernel},
      At sb uses ⟨[i], [i], []⟩ name node k.fs → (¬ IsLink node (name i) → retry < 10) →
      (IsLink node (name i) → 10 ≤ retry) →
      (some (i, retry) = none ∧ ∀ c m, c ≤ 10 - retry → ¬ Hops node home c (name i) m) ∨
      ∃ j retry' name', some (i, retry) = some (j, retry') ∧
        At sb uses ⟨[j], [j], []⟩ name' node k.fs ∧
        ((10 ≤ retry' ∧ ∀ c m, c ≤ 10 - retry → ¬ Hops node home c (name i) m) ∨
        (retry' < 10 ∧ ∃ c, c ≤ 10 - retry ∧ Hops node home c (name i) (name' j))) := by
    intro retry i name k here fewer spent
    refine Or.inr ⟨i, retry, name, rfl, here, ?_⟩
    by_cases link : IsLink node (name i)
    · refine Or.inl ⟨spent link, fun c m few chain => ?_⟩
      cases chain with
      | here other => exact other link
      | next first rest =>
        have := spent link
        omega
    · exact Or.inr ⟨fewer link, 0, Nat.zero_le _, .here link⟩
  intro fuel
  induction fuel with
  | zero =>
    intro retry memory i name k _ here enough fewer _
    rw [follow]
    exact .done (leaves here fewer fun _ => by omega)
  | succ fuel ih =>
    intro retry memory i name k isHome here enough fewer reads
    obtain ⟨x, isNode, shows, -⟩ := here.exists_node (i := i) List.mem_cons_self
    rw [follow]
    refine .seq_run (run_inode i k) ?_
    have type : (k.fs.inode i).type = x.type := shows.type
    by_cases stays : (k.fs.inode i).type = T_SYMLINK ∧ false = false ∧ retry < 10
    · rw [if_pos stays]
      have link : x.type = T_SYMLINK := type ▸ stays.1
      have few := stays.2.2
      obtain ⟨left, isLeft⟩ : ∃ left, 10 - retry = left + 1 := ⟨9 - retry, by omega⟩
      rw [isLeft] at reads
      obtain ⟨read, later⟩ := reads x isNode link
      refine .seq (meets_onFs₁ (here.readi_whole (i := i) List.mem_cons_self isNode)) fun r k₁ got => ?_
      obtain ⟨same, rfl⟩ := got
      dsimp only
      rw [if_neg (not_not.mpr rfl), read]
      rw [← same] at here
      refine .seq (meets_onFs (here.iunlockput_linked List.not_mem_nil)) fun _ k₂ dropped => ?_
      refine .seq (meets_onFs (namei_locks inside root entered used full dropped isHome x.target))
        fun r k₃ found => ?_
      have isHop : hop node home (name i) = _ := hop_eq isNode link
      rcases found with ⟨rfl, leads⟩ | ⟨j, name', rfl, leads, isHome', allocated, held⟩
      · refine .seq_run rfl (.done (Or.inl ⟨rfl, fun c m _ chain => ?_⟩))
        cases chain with
        | here other => exact other ⟨x, isNode, link⟩
        | next first rest =>
          rw [isHop, leads] at first
          cases first
      · have first : hop node home (name i) = some (name' j) := isHop.trans leads
        refine .seq (meets_onFs₁ (held.ilock (held.ref_pos_of_held List.mem_cons_self) List.not_mem_nil
          fun absent => absurd absent allocated)) fun _ k₄ locked => ?_
        obtain ⟨-, locked⟩ := locked
        refine .seq_run (run_inode j k₄) ?_
        obtain ⟨y, isNode', shows', -⟩ := locked.exists_node (i := j) List.mem_cons_self
        have type' : (k₄.fs.inode j).type = y.type := shows'.type
        by_cases again : y.type = T_SYMLINK
        · rw [if_pos (type'.trans again)]
          have isLink : IsLink node (name' j) := ⟨y, isNode', again⟩
          have reads' := later _ first
          have fewerLeft : 10 - retry = 10 - (retry + 1) + 1 := by omega
          rw [show left = 10 - (retry + 1) by omega] at reads'
          rw [fewerLeft]
          refine (ih (retry + 1) _ j name' k₄ isHome' locked (by omega)
            (fun other => absurd isLink other) reads').mono fun r k₅ result => ?_
          rcases result with ⟨isNone, none⟩ | ⟨l, retry', name'', isSome, last, outcome⟩
          · exact Or.inl ⟨isNone, no_hops_of_hop first none⟩
          · refine Or.inr ⟨l, retry', name'', isSome, last, outcome.imp
              (fun both => ⟨both.1, no_hops_of_hop first both.2⟩) fun both => ⟨both.1, ?_⟩⟩
            obtain ⟨c, short, chain⟩ := both.2
            exact ⟨c + 1, Nat.succ_le_succ short, .next first chain⟩
        · rw [if_neg fun isLink => again (type' ▸ isLink)]
          have other : ¬ IsLink node (name' j) := by
            intro isLink
            obtain ⟨z, isZ, link'⟩ := isLink
            rw [isNode'] at isZ
            cases isZ
            exact again link'
          refine .of_ok (follow_leaves (fun stays => again (type' ▸ stays.1)) fuel _)
            (Or.inr ⟨j, retry, name', rfl, locked, Or.inr ⟨few, 1, by omega, .next first (.here other)⟩⟩)
    · rw [if_neg stays]
      refine .done (leaves here fewer fun isLink => ?_)
      obtain ⟨y, isY, link⟩ := isLink
      rw [isNode] at isY
      cases isY
      by_contra more
      exact stays ⟨type.trans link, rfl, by omega⟩

end Exact

/-! ### The call -/

section Functions

variable (sb : Superblock)

/-- `sys_open` up to the test behind the loop: the inode it goes on with, or nothing when it fails. -/
def openInode (O_NOFOLLOW : UInt32) (p : Pid) (locals : Locals) (omode : UInt32) (path : List UInt8) :
    Sys (Option Ip) := do
  match ← openStart sb p locals omode path with
  | none => return none
  | some ip =>
    let cwd ← myCwd p
    match ← follow sb cwd locals.name (hasFlag omode O_NOFOLLOW) 11 0 locals.target ip with
    | none => return none
    | some (ip, retry) =>
      if 10 ≤ retry then
        onFs (iunlockput sb ip)
        end_op
        return none
      else return some ip

/-- `sys_open` from there on. -/
def openRest (p : Pid) (omode : UInt32) (ip : Ip) : Sys Int := do
  let i ← onFs₁ (inode ip)
  if i.type = T_DEVICE ∧ (i.major < 0 ∨ NDEV ≤ i.major.toInt) then openFail sb ip
  else openFile sb p omode ip

/-- The two parts make up the call. -/
theorem sys_open_run (O_NOFOLLOW : UInt32) (p : Pid) (locals : Locals) (omode : UInt32)
    (path : List UInt8) : (sys_open sb O_NOFOLLOW p locals omode (some path)).run =
      begin_op.run >>= fun _ => (openInode sb O_NOFOLLOW p locals omode path).run >>= fun r =>
        r.elim (pure (-1)) fun ip => (openRest sb p omode ip).run := by
  rw [sys_open, openInode]
  simp only [Script.run_bind, bind_assoc]
  refine congrArg _ (funext fun _ => congrArg _ (funext fun first => ?_))
  cases first with
  | none => rfl
  | some ip =>
    simp only [Script.run_bind, bind_assoc]
    refine congrArg _ (funext fun cwd => congrArg _ (funext fun last => ?_))
    cases last with
    | none => rfl
    | some result =>
      dsimp only
      split_ifs
      · simp only [openFail, Script.run_bind, bind_assoc]
        rfl
      · rfl

end Functions

section Call

variable {sb : Superblock} {uses : Ip → Int} {name : Ip → Nat} {node : Nat → Option Node} {k : Kernel}
  {p : Pid} {locals : Locals} {omode O_NOFOLLOW : UInt32} {path : List UInt8} {n : Nat}

variable (formed : WellFormed sb uses name node k.fs) (used : 0 < uses (k.proc p).cwd)
  (leads : resolve node (start (name (k.proc p).cwd) path) (components path) = some n)
  (link : IsLink node n) (plain : hasFlag omode O_CREATE = false)
  (follows : hasFlag omode O_NOFOLLOW = false)
  (reads : ReadsTargets node (name (k.proc p).cwd) 10 locals.target n)

include formed used leads link plain follows reads

omit follows reads in
/-- The call starts with the link itself, locked. -/
theorem openStart_link : Meets (openStart sb p locals omode path).run k (TableFull k.fs) fun r k₁ =>
    ∃ i name', r = some i ∧ name' i = n ∧ name' (k.proc p).cwd = name (k.proc p).cwd ∧
      k₁.proc = k.proc ∧ At sb uses ⟨[i], [i], []⟩ name' node k₁.fs := by
  obtain ⟨x, isNode, isLink⟩ := link
  rw [openStart]
  refine .seq_run rfl ?_
  rw [plain]
  refine .seq ((meets_onFs (namei_locks formed.inside formed.root formed.entered used formed.full
    formed.idle rfl path)).also (onFs_proc _ k)) fun r k₁ found => ?_
  obtain ⟨⟨rfl, lost⟩ | ⟨i, name', rfl, found, isHome, allocated, held⟩, kept⟩ := found
  · rw [leads] at lost
    cases lost
  · rw [leads] at found
    have isName : name' i = n := (Option.some.inj found).symm
    refine .seq ((meets_onFs₁ (held.ilock (held.ref_pos_of_held List.mem_cons_self) List.not_mem_nil
      fun absent => absurd absent allocated)).also (onFs_proc _ k₁)) fun _ k₂ locked => ?_
    obtain ⟨⟨-, locked⟩, kept'⟩ := locked
    refine .seq_run (run_inode i k₂) ?_
    obtain ⟨y, isNode', shows, -⟩ := locked.exists_node (i := i) List.mem_cons_self
    rw [isName, isNode] at isNode'
    cases isNode'
    rw [if_neg fun isDir => absurd (isDir.1.symm.trans (shows.type.trans isLink)) (by decide)]
    exact .done ⟨i, name', rfl, isName, isHome, kept'.trans kept, locked⟩

/-- The inode that `sys_open` goes on with is the end of the chain, when it has at most ten hops. -/
theorem openInode_exact : Meets (openInode sb O_NOFOLLOW p locals omode path).run k (TableFull k.fs)
    fun r k' =>
      ((∀ c m, c ≤ 10 → ¬ Hops node (name (k.proc p).cwd) c n m) → r = none) ∧
      ∀ c m, c ≤ 10 → Hops node (name (k.proc p).cwd) c n m →
        ∃ i, r = some i ∧ (k'.fs.inode i).lock = true ∧ (k'.fs.inode i).inum = m := by
  rw [openInode]
  refine .seq (openStart_link formed used leads link plain) fun r k₁ begun => ?_
  obtain ⟨i, name', rfl, isName, isHome, kept, here⟩ := begun
  refine .seq_run (a := (k₁.proc p).cwd) rfl ?_
  rw [kept, follows]
  subst isName
  refine .seq (follow_exact formed.inside formed.root formed.entered used formed.full 11 0 _ i name' k₁
    isHome here (by decide) (fun _ => by decide) reads) fun r k₂ followed => ?_
  rcases followed with ⟨rfl, none⟩ | ⟨j, retry, name'', rfl, last, outcome⟩
  · exact .done ⟨fun _ => rfl, fun c m short chain => absurd chain (none c m short)⟩
  · rcases outcome with ⟨spent, none⟩ | ⟨fewer, c, short, chain⟩
    · dsimp only
      rw [if_pos spent]
      refine .seq (meets_onFs (last.iunlockput_linked List.not_mem_nil)) fun _ k₃ _ => ?_
      exact .seq_run rfl (.done ⟨fun _ => rfl, fun c m short chain => absurd chain (none c m short)⟩)
    · dsimp only
      rw [if_neg (Nat.not_le_of_lt fewer)]
      refine .done ⟨fun none => absurd chain (none c _ short), fun c' m _ chain' => ⟨j, rfl, ?_, ?_⟩⟩
      · exact (last.locked j).mpr List.mem_cons_self
      · rw [last.named (last.ref_pos_of_held List.mem_cons_self)]
        exact chain.unique chain'

/-- **Symbolic links are followed exactly.** For every graph of links, and every path that leads to a
link and is opened without `O_CREATE` and `O_NOFOLLOW`: the loop ends within ten rounds, on every state;
`sys_open` goes on behind the loop if and only if a chain of at most ten links from there ends, and then
with the inode at its end, locked; otherwise it returns -1. It panics only in a table with at most one
free entry. -/
theorem symlink_following_exact :
    (∀ extra memory ip k', (follow sb (k.proc p).cwd locals.name false (10 + extra) 0 memory ip).run k' =
      (follow sb (k.proc p).cwd locals.name false 10 0 memory ip).run k') ∧
    (sys_open sb O_NOFOLLOW p locals omode (some path)).run k =
      (begin_op.run >>= fun _ => (openInode sb O_NOFOLLOW p locals omode path).run >>= fun r =>
        r.elim (pure (-1)) fun ip => (openRest sb p omode ip).run) k ∧
    Meets (begin_op.run >>= fun _ => (openInode sb O_NOFOLLOW p locals omode path).run) k
      (TableFull k.fs) (fun r k' =>
        ((∀ c m, c ≤ 10 → ¬ Hops node (name (k.proc p).cwd) c n m) → r = none) ∧
        ∀ c m, c ≤ 10 → Hops node (name (k.proc p).cwd) c n m →
          ∃ i, r = some i ∧ (k'.fs.inode i).lock = true ∧ (k'.fs.inode i).inum = m) ∧
    ((∀ c m, c ≤ 10 → ¬ Hops node (name (k.proc p).cwd) c n m) →
      Meets (sys_open sb O_NOFOLLOW p locals omode (some path)).run k (TableFull k.fs) fun r _ =>
        r = -1) := by
  have begun : begin_op.run k = .ok ((), { k with ops := k.ops ++ [.begin_op] }) := rfl
  have opened := (openInode_exact (k := { k with ops := k.ops ++ [.begin_op] }) formed used leads link
    plain follows reads).congr
      (bind_run (f := fun _ => (openInode sb O_NOFOLLOW p locals omode path).run) begun)
  have parts := congrFun (sys_open_run sb O_NOFOLLOW p locals omode path) k
  refine ⟨fun extra memory ip k' => follow_bounded extra 10 0 memory ip k' fun _ => le_rfl, parts,
    opened, fun none => ?_⟩
  rw [← bind_assoc] at parts
  refine Meets.congr parts (opened.bind fun r k₁ found => ?_)
  rw [found.1 none]
  exact .pure rfl

end Call

/-! ### A link of the root directory -/

/-- The root directory with the name "a", which is a link without a target. -/
abbrev linkFiles (held : Nat) : Files := busyFiles T_SYMLINK (by decide) (held + 1)

/-- The first process is in the root directory, each of the others in a removed directory of its own. -/
def linkKernel (held : Nat) : Kernel where
  fs := (linkFiles held).fs 1 held (held + 1)
  file _ := ⟨.none, 0, false, false, firstIp, 0, 0⟩
  proc p := ⟨p.val + 1 ≤ held, if inside : p.val < NINODE then ⟨p.val, inside⟩ else firstIp,
    fun _ => none⟩
  ops := []

section Link

variable {held : Nat} (few : held = 1 ∨ held = 50)

include few

/-- The link leads from the root directory back to it. -/
theorem linkKernel_hops :
    resolve (nodeAt busySuperblock ((linkFiles held).disk (held + 1))) (start 1 [47, 97])
      (components [47, 97]) = some (held + 1) ∧
    hop (nodeAt busySuperblock ((linkFiles held).disk (held + 1))) 1 (held + 1) = some 1 ∧
    ¬ IsLink (nodeAt busySuperblock ((linkFiles held).disk (held + 1))) 1 := by
  have node : ∀ n, 0 < n → n ≤ held + 1 → nodeAt busySuperblock ((linkFiles held).disk (held + 1)) n =
      some ((linkFiles held).node n) := fun n positive upper => by
    rw [(linkFiles held).nodeAt_disk (by omega), if_pos ⟨positive, upper⟩]
  have isLink : (linkFiles held).node (held + 1) = ⟨T_SYMLINK, 0, 0, 1, []⟩ := by
    rcases few with rfl | rfl <;> rfl
  refine ⟨resolve_busyFiles few, ?_, fun link => ?_⟩
  · rw [hop_eq (node _ (Nat.succ_pos _) le_rfl) (by rw [isLink]), isLink]
    rfl
  · obtain ⟨x, isNode, isLink⟩ := link
    rw [node 1 (by decide) (Nat.le_add_left 1 held)] at isNode
    cases isNode
    have isDir : ((linkFiles held).node 1).type = T_DIR := rfl
    exact absurd (isDir.symm.trans isLink) (by decide)

theorem linkKernel_isLink :
    IsLink (nodeAt busySuperblock ((linkFiles held).disk (held + 1))) (held + 1) :=
  isLink_of_hop (linkKernel_hops few).2.1

theorem linkKernel_reads :
    ReadsTargets (nodeAt busySuperblock ((linkFiles held).disk (held + 1))) 1 10 [] (held + 1) := by
  obtain ⟨-, first, stops⟩ := linkKernel_hops few
  intro x isNode _
  rw [(linkFiles held).nodeAt_disk (by omega), if_pos ⟨Nat.succ_pos _, le_rfl⟩] at isNode
  cases isNode
  refine ⟨?_, fun m leads => ?_⟩
  · rcases few with rfl | rfl <;> rfl
  · obtain rfl : m = 1 := Option.some.inj (leads.symm.trans first)
    exact readsTargets_of_not_link stops

end Link

/-- Opening "/a" with one process. -/
theorem symlink_following_exact_small :
    Meets (begin_op.run >>= fun _ =>
      (openInode busySuperblock 0x800 ⟨0, by decide⟩ ⟨fun _ => 0, []⟩ O_RDONLY [47, 97]).run)
      (linkKernel 1)
      (TableFull (linkKernel 1).fs) fun r k' =>
        ∃ i, r = some i ∧ (k'.fs.inode i).lock = true ∧ (k'.fs.inode i).inum = 1 := by
  have one : 1 = 1 ∨ 1 = 50 := Or.inl rfl
  obtain ⟨leads, first, stops⟩ := linkKernel_hops one
  refine (symlink_following_exact (p := ⟨0, by decide⟩) (wellFormed_busyFiles one) ?_
    leads (linkKernel_isLink one) (by decide) (by decide) ?_).2.2.1.mono
      fun r k' found => found.2 1 1 (by decide) (.next first (.here stops))
  · decide
  · exact linkKernel_reads one

/-- **A full table.** With fifty processes, the same call panics. -/
theorem full_table_open_panics :
    WellFormed busySuperblock (fun i => if i.val + 1 ≤ 50 then 1 else 0) (fun i => i.val + 1)
      (nodeAt busySuperblock ((linkFiles 50).disk 51)) (linkKernel 50).fs ∧
    resolve (nodeAt busySuperblock ((linkFiles 50).disk 51)) (start 1 [47, 97])
      (components [47, 97]) = some 51 ∧
    IsLink (nodeAt busySuperblock ((linkFiles 50).disk 51)) 51 ∧
    Hops (nodeAt busySuperblock ((linkFiles 50).disk 51)) 1 1 51 1 ∧
    ReadsTargets (nodeAt busySuperblock ((linkFiles 50).disk 51)) 1 10 [] 51 ∧
    (sys_open busySuperblock 0x800 ⟨0, by decide⟩ ⟨fun _ => 0, []⟩ O_RDONLY (some [47, 97])).run
      (linkKernel 50) = .error .igetNoInodes := by
  have fifty : 50 = 1 ∨ 50 = 50 := Or.inr rfl
  obtain ⟨leads, first, stops⟩ := linkKernel_hops fifty
  have panics : errorOf ((sys_open busySuperblock 0x800 ⟨0, by decide⟩ ⟨fun _ => 0, []⟩ O_RDONLY
      (some [47, 97])).run (linkKernel 50)) = some .igetNoInodes := by
    decide +kernel
  exact ⟨wellFormed_busyFiles fifty, leads, linkKernel_isLink fifty, .next first (.here stops),
    linkKernel_reads fifty, errorOf_eq_some.mp panics⟩

end Csc3150.Namespace
