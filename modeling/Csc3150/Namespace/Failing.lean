/-
**Failed calls on names.**

* `At.dirlink_ends` — `dirlink`, also of a name that is there;
* `At.create_fails` — a `create` that fails has made nothing that stays;
* `sys_link_ends` — what a `sys_link` leaves, whether it fails or not;
* `failed_calls_traceless` — a `sys_link`, `sys_unlink`, `sys_mkdir` or `sys_mknod` that fails leaves every
  inode as it was.
-/

import Csc3150.Namespace.Creating
import Csc3150.Namespace.Serving
import Csc3150.Namespace.Targets

namespace Csc3150.Namespace

open ByteBuffer FileSystem Outcome Program Search
open Program.Script (atomic)

namespace At

variable {sb : Superblock} {uses : Ip → Int} {held locks : List Ip} {loose : List Nat}
  {name : Ip → Nat} {node : Nat → Option Node} {fs : Fs} {i j dp : Ip} {x : Node} {nm : Name}
  {type major minor : Int16} {stops : Halt → Prop} {n : Nat}

/-- `iput` of a reference that the caller has once more; the inode may be locked. -/
theorem iput_shared (here : At sb uses ⟨i :: held, locks, loose⟩ name node fs) (member : i ∈ held) :
    Meets (Namespace.iput sb i).run fs stops fun _ fs' =>
      At sb uses ⟨held, locks, loose⟩ name node fs' := by
  have pos := here.ref_pos_of_held (i := i) List.mem_cons_self
  have nonneg := here.nonneg i
  have count := List.count_pos_iff.mpr member
  have total : (fs.inode i).ref = uses i + held.count i + 1 := by
    have here := here.refs i
    dsimp only at here
    rw [List.count_cons_self] at here
    push_cast at here
    omega
  rw [run_iput]
  obtain ⟨⟨⟩, fs', run, sound, outcome⟩ := iput_spec here.sound pos fun _ => by omega
  rcases outcome with ⟨-, rfl⟩ | ⟨one, -⟩
  · exact .of_ok run (here.entry pos sound rfl (by dsimp only; omega)
      (fun j different => (List.count_cons_of_ne (Ne.symm different)).symm) (here.locked i)
      (fun _ _ => Iff.rfl) (fun _ _ => Iff.rfl) Or.inl (fun _ => member) id)
  · omega

/-- `dirlink`, whether the name is there or not. -/
theorem dirlink_ends (here : At sb uses ⟨held, locks, []⟩ name node fs) (lock : dp ∈ locks)
    (paired : ∀ m ∈ locks, m ∈ held) (isNode : node (name dp) = some x) (isDir : x.type = T_DIR)
    (positive : 0 < n) (inside : n < sb.ninodes) (width : sb.ninodes ≤ 2 ^ 16)
    (apart : key nm ≠ key dot → key nm ≠ key dotdot → n ≠ name dp) :
    Meets (Namespace.dirlink sb dp nm n).run fs (fun _ => True) fun r fs' =>
      ∃ name', (∀ m, 0 < uses m ∨ m ∈ held → name' m = name m) ∧
        ((r < 0 ∧ At sb uses ⟨held, locks, []⟩ name' node fs') ∨
        ¬ r < 0 ∧ lookup x.bytes (key nm) = none ∧
          At sb uses ⟨held, locks, []⟩ name' (Function.update node (name dp)
            (some { x with bytes := addEntry x.bytes nm n })) fs') := by
  cases found : lookup x.bytes (key nm) with
  | none =>
    refine (here.dirlink_new isNode isDir lock found positive inside width apart).mono
      fun r fs' entered => ⟨name, fun _ _ => rfl, ?_⟩
    rcases entered.2 with ⟨rfl, after⟩ | ⟨rfl, after⟩
    · exact Or.inr ⟨by decide, rfl, after⟩
    · exact Or.inl ⟨by decide, after⟩
  | some both =>
    obtain ⟨m, k⟩ := both
    rw [Namespace.dirlink]
    refine .seq (here.dirlookup_found isNode isDir lock found fun _ => trivial) fun r fs₁ entered => ?_
    obtain ⟨j, name', rfl, -, same, here₁⟩ := entered
    have frame : ∀ m, 0 < uses m ∨ m ∈ held → name' m = name m := fun m inUse => same m
      (inUse.elim here.ref_pos_of_uses here.ref_pos_of_held)
    have put : Meets (Namespace.iput sb j).run fs₁ (fun _ => True) fun _ fs' =>
        At sb uses ⟨held, locks, []⟩ name' node fs' := by
      by_cases member : j ∈ held
      · exact here₁.iput_shared member
      · exact here₁.iput_linked fun isLocked => member (paired j isLocked)
    exact .seq put fun _ fs₂ after => .done ⟨name', frame, Or.inl ⟨by decide, after⟩⟩

/-! ### `create` that fails -/

/-- The entries "." and ".." of the new inode. -/
theorem createDots_ends (here : At sb uses ⟨held, locks, []⟩ name node fs) (lock : i ∈ locks)
    (paired : ∀ m ∈ locks, m ∈ held) (isNode : node (name i) = some x) (isDir : x.type = T_DIR)
    (parent : dp ∈ locks) (width : sb.ninodes ≤ 2 ^ 16) :
    Meets (Namespace.createDots sb i dp).run fs (fun _ => True) fun _ fs' => ∃ name' bytes,
      (∀ m, 0 < uses m ∨ m ∈ held → name' m = name m) ∧
      At sb uses ⟨held, locks, []⟩ name' (Function.update node (name i) (some { x with bytes := bytes }))
        fs' := by
  have unchanged : Function.update node (name i) (some { x with bytes := x.bytes }) = node :=
    Function.update_eq_self_iff.mpr isNode.symm
  have first := here.sound.table.named (here.ref_pos_of_held (paired i lock))
  refine .seq_run (a := fs.inode i) rfl ?_
  refine .seq (here.dirlink_ends lock paired isNode isDir first.2.1 first.2.2 width
    fun notDot => absurd rfl notDot) fun r fs₁ dotted => ?_
  obtain ⟨name₁, frame₁, ⟨failed, after⟩ | ⟨made, -, after⟩⟩ := dotted
  · rw [if_pos failed]
    refine .done ⟨name₁, x.bytes, frame₁, ?_⟩
    rwa [unchanged]
  · rw [if_neg made]
    have same : name₁ i = name i := frame₁ i (Or.inr (paired i lock))
    have second := after.sound.table.named (after.ref_pos_of_held (paired dp parent))
    rw [← same] at after
    refine .seq_run (a := fs₁.inode dp) rfl ?_
    refine .seq (after.dirlink_ends lock paired (Function.update_self _ _ _) isDir second.2.1 second.2.2
      width fun _ notDotdot => absurd rfl notDotdot) fun r fs₂ dotted => ?_
    obtain ⟨name₂, frame₂, ends⟩ := dotted
    have frame : ∀ m, 0 < uses m ∨ m ∈ held → name₂ m = name m := fun m inUse =>
      (frame₂ m inUse).trans (frame₁ m inUse)
    rcases ends with ⟨-, after⟩ | ⟨-, -, after⟩
    · exact .done ⟨name₂, _, frame, same ▸ after⟩
    · rw [Function.update_idem] at after
      exact .done ⟨name₂, _, frame, same ▸ after⟩

/-- The rest of `create`: when it fails, the inode is gone. -/
theorem createEntry_fails {name' : Ip → Nat} {bytes : List UInt8} {made : Bool}
    (here : At sb uses ⟨i :: dp :: held, [i, dp], []⟩ name'
      (Function.update node (name' i) (some ⟨type, major, minor, 1, bytes⟩)) fs)
    (free : node (name' i) = none) (fresh : i ∉ dp :: held) (unused : uses i = 0)
    (isNode : node (name' dp) = some x) (isDir : x.type = T_DIR) (width : sb.ninodes ≤ 2 ^ 16) :
    Meets (if made = false then Namespace.createFail sb dp i
      else do
        let ip ← atomic (Namespace.inode i)
        let r ← Namespace.dirlink sb dp nm ip.inum
        if r < 0 then Namespace.createFail sb dp i
        else
          if type = T_DIR then
            atomic (assign dp fun d => { d with nlink := d.nlink + 1 })
            atomic (Fs.iupdate sb dp)
          Namespace.iunlockput sb dp
          return some i).run fs (fun _ => True) fun r fs' => r = none → ∃ name'',
      (∀ m, 0 < uses m ∨ m ∈ held → name'' m = name' m) ∧ At sb uses ⟨held, [], []⟩ name'' node fs' := by
  have apart : i ≠ dp := fun same => fresh (same ▸ List.mem_cons_self)
  have other : name' dp ≠ name' i := fun same => by
    rw [same, free] at isNode
    cases isNode
  have last : uses i + (dp :: held).count i = 0 := by
    rw [unused, List.count_eq_zero_of_not_mem fresh]
    rfl
  have fails : ∀ {name'' fs₁}, (∀ m, 0 < uses m ∨ m ∈ i :: dp :: held → name'' m = name' m) →
      At sb uses ⟨i :: dp :: held, [i, dp], []⟩ name''
        (Function.update node (name' i) (some ⟨type, major, minor, 1, bytes⟩)) fs₁ →
      Meets (Namespace.createFail sb dp i).run fs₁ (fun _ => True) fun r fs' => r = none → ∃ name'',
        (∀ m, 0 < uses m ∨ m ∈ held → name'' m = name' m) ∧
        At sb uses ⟨held, [], []⟩ name'' node fs' := by
    intro name'' fs₁ frame begun
    have same : name'' i = name' i := frame i (Or.inr List.mem_cons_self)
    rw [← same] at begun
    refine (begun.createFail apart (Function.update_self _ _ _) last).mono fun r fs' after _ => ?_
    refine ⟨name'', fun m inUse => frame m (inUse.imp_right fun member =>
      List.mem_cons_of_mem _ (List.mem_cons_of_mem _ member)), ?_⟩
    have restored := after.2
    rwa [Function.update_idem, same, Function.update_eq_self_iff.mpr free.symm] at restored
  by_cases failed : made = false
  · rw [if_pos failed]
    exact fails (fun _ _ => rfl) here
  · rw [if_neg failed]
    have known := here.sound.table.named (here.ref_pos_of_held (i := i) List.mem_cons_self)
    have number := here.named (here.ref_pos_of_held (i := i) List.mem_cons_self)
    have isParent : Function.update node (name' i) (some ⟨type, major, minor, 1, bytes⟩) (name' dp) =
        some x := by rw [Function.update_of_ne other, isNode]
    refine .seq_run (a := fs.inode i) rfl ?_
    refine .seq (here.dirlink_ends (List.mem_cons_of_mem _ List.mem_cons_self) (fun m member => ?_) isParent
      isDir known.2.1 known.2.2 width fun _ _ => ?_) fun r fs₁ entered => ?_
    · exact List.mem_of_mem_take (i := 2) member
    · rw [number]
      exact other.symm
    · obtain ⟨name'', frame, ⟨failed, after⟩ | ⟨done, -⟩⟩ := entered
      · rw [if_pos failed]
        exact fails frame after
      · rw [if_neg done]
        by_cases isDir : type = T_DIR
        · rw [if_pos isDir]
          exact .seq Meets.trivial fun _ _ _ => .seq Meets.trivial fun _ _ _ =>
            .seq Meets.trivial fun _ _ _ => .done fun none => by cases none
        · rw [if_neg isDir]
          exact .seq Meets.trivial fun _ _ _ => .done fun none => by cases none

/-- `create` that fails, for an inode of any type. -/
theorem create_fails (here : At sb uses ⟨held, [], []⟩ name node fs)
    (live : ∀ m ∈ held, node (name m) ≠ none) (typed : type ≠ 0) (root : ROOTINO < sb.ninodes)
    (width : sb.ninodes ≤ 2 ^ 16) {cwd : Ip} (used : 0 < uses cwd) {path : List UInt8} :
    Meets (Namespace.create sb cwd path type major minor nm).run fs (fun _ => True) fun r fs' =>
      r = none → ∃ name', At sb uses ⟨held, [], []⟩ name' node fs' := by
  refine here.create_split live root used trivial trivial (fun name' fs' _ _ after _ => ⟨name', after⟩)
    (fun _ i name' fs' _ _ none => by cases none)
    fun dp nm' name₁ x fs₁ _ _ isNode isDir _ _ live₁ locked => ?_
  refine locked.createNew_made live₁ isNode typed trivial (fun fs' _ after _ => ⟨name₁, after⟩)
    fun i name' fs' made => ?_
  have same : name' dp = name₁ dp := made.frame dp (Or.inr List.mem_cons_self)
  have parent : node (name' dp) = some x := by rw [same, isNode]
  by_cases directory : type = T_DIR
  · rw [if_pos directory]
    refine .seq (made.order.createDots_ends List.mem_cons_self (fun m member => ?_)
      (Function.update_self _ _ _) directory (List.mem_cons_of_mem _ List.mem_cons_self) width)
      fun r fs'' dotted => ?_
    · exact List.mem_of_mem_take (i := 2) member
    · obtain ⟨name'', bytes, frame, after⟩ := dotted
      have self : name'' i = name' i := frame i (Or.inr List.mem_cons_self)
      have parent' : name'' dp = name' dp :=
        frame dp (Or.inr (List.mem_cons_of_mem _ List.mem_cons_self))
      rw [Function.update_idem, ← self] at after
      refine (after.createEntry_fails (by rw [self]; exact made.free) made.fresh made.unused
        (by rw [parent']; exact parent) isDir width).mono fun r fs' fails none => ?_
      obtain ⟨last, -, after⟩ := fails none
      exact ⟨last, after⟩
  · rw [if_neg directory]
    refine .seq_run (a := true) rfl ((made.order.createEntry_fails made.free made.fresh made.unused
      parent isDir width).mono fun r fs' fails none => ?_)
    obtain ⟨last, -, after⟩ := fails none
    exact ⟨last, after⟩

end At

/-! ### The calls -/

/-- Every inode is what `node` says, and nothing is held. -/
def Intact (sb : Superblock) (uses : Ip → Int) (node : Nat → Option Node) (fs : Fs) : Prop :=
  ∃ name, At sb uses ⟨[], [], []⟩ name node fs

/-- A `sys_link` that succeeds: inode `n`, which is `y`, has one more link, and directory `d` one more
entry. -/
structure Linked (sb : Superblock) (uses : Ip → Int) (name : Ip → Nat) (node : Nat → Option Node) (cwd : Ip)
    (old new : List UInt8) (fs' : Fs) (d n : Nat) (x y : Node) (nm : Name) (name' : Ip → Nat) : Prop where
  leads : resolve node (At.origin name cwd old) (components old) = some n
  isNode : node n = some y
  file : y.type ≠ T_DIR
  parent : resolveParent (Function.update node n (some { y with nlink := y.nlink + 1 }))
    (At.origin name cwd new) (components new) = some (d, key nm)
  apart : n ≠ d
  isParent : node d = some x
  isDir : x.type = T_DIR
  absent : lookup x.bytes (key nm) = none
  positive : 0 < n
  inside : n < sb.ninodes
  frame : ∀ m, 0 < uses m → name' m = name m
  idle : At sb uses ⟨[], [], []⟩ name' (Function.update
    (Function.update node n (some { y with nlink := y.nlink + 1 })) d
    (some { x with bytes := addEntry x.bytes nm n })) fs'

section Calls

variable {sb : Superblock} {uses : Ip → Int} {name : Ip → Nat} {node : Nat → Option Node} {k : Kernel}
  {fs : Fs} {p : Pid} {i dp : Ip} {x : Node} {n : Nat}

variable (here : At sb uses ⟨[], [], []⟩ name node k.fs) (root : ROOTINO < sb.ninodes)
  (width : sb.ninodes ≤ 2 ^ 16) (used : 0 < uses (k.proc p).cwd)

include here root width used

/-- `sys_mkdir` and `sys_mknod` from `create` on. -/
theorem make_fails {type major minor : Int16} (typed : type ≠ 0) (path : List UInt8) (nm : Name) :
    Meets (do
      match ← onFs (create sb (k.proc p).cwd path type major minor nm) with
      | none =>
        end_op
        return -1
      | some ip =>
        onFs (iunlockput sb ip)
        end_op
        return (0 : Int)).run (k.during k.fs) (fun _ => True) fun r k' =>
      r = -1 → Intact sb uses node k'.fs := by
  have live : ∀ m ∈ ([] : List Ip), node (name m) ≠ none := fun _ member => absurd member List.not_mem_nil
  refine during_seq (here.create_fails live typed root width used) fun r fs₁ fails => ?_
  cases r with
  | none => exact .seq_run rfl (.done fun _ => fails rfl)
  | some i =>
    exact .seq Meets.trivial fun _ _ _ => .seq Meets.trivial fun _ _ _ =>
      .done fun failed => absurd failed (by decide)

theorem sys_mkdir_fails (locals : Locals) (path : Option (List UInt8)) :
    Meets (sys_mkdir sb p locals path).run k (fun _ => True) fun r k' =>
      r = -1 → Intact sb uses node k'.fs := by
  refine during_begin ?_
  cases path with
  | none => exact .seq_run rfl (.done fun _ => ⟨name, here⟩)
  | some path => exact during_cwd (make_fails here root width used (by decide) path locals.name)

theorem sys_mknod_fails (locals : Locals) (major minor : Int16) (path : Option (List UInt8)) :
    Meets (sys_mknod sb p locals major minor path).run k (fun _ => True) fun r k' =>
      r = -1 → Intact sb uses node k'.fs := by
  refine during_begin ?_
  cases path with
  | none => exact .seq_run rfl (.done fun _ => ⟨name, here⟩)
  | some path => exact during_cwd (make_fails here root width used (by decide) path locals.name)

omit here root width used in
/-- The label `bad` of `sys_link` takes the new link back. -/
theorem linkBad_intact (isNode : node n = some x) (link : name i = n)
    (linked : At sb uses ⟨[i], [], []⟩ name
      (Function.update node n (some { x with nlink := x.nlink + 1 })) fs)
    (kept : x.nlink ≠ 0 ∨ 0 < uses i) :
    Meets (linkBad sb i).run (k.during fs) (fun _ => True) fun r k' =>
      r = -1 ∧ Intact sb uses node k'.fs := by
  refine during_seq₁ (linked.ilock (linked.ref_pos_of_held List.mem_cons_self) List.not_mem_nil
    fun _ => trivial) fun _ fs₁ locked => ?_
  obtain ⟨-, locked⟩ := locked
  have isNode' : Function.update node n (some { x with nlink := x.nlink + 1 }) (name i) =
      some { x with nlink := x.nlink + 1 } := by rw [link, Function.update_self]
  obtain ⟨shows, -⟩ := locked.shows List.mem_cons_self isNode'
  have restored : nodeOf { (fs₁.inode i).toDinode with nlink := (fs₁.inode i).nlink - 1 } x.bytes = x := by
    refine Node.ext shows.type shows.major shows.minor ?_ rfl
    show (fs₁.inode i).nlink - 1 = x.nlink
    rw [shows.nlink]
    exact Int16.add_sub_cancel x.nlink 1
  refine during_update (locked.iupdate List.mem_cons_self isNode' restored rfl rfl rfl
    (kept.imp_right Or.inr)) fun _ fs₂ updated => ?_
  rw [link, Function.update_idem, Function.update_eq_self_iff.mpr isNode.symm] at updated
  exact during_seq (updated.iunlockput_linked List.not_mem_nil) fun _ fs₃ after =>
    .seq_run rfl (.done ⟨rfl, name, after⟩)

omit here root width used in
theorem succ_ne_zero_of_nonneg {a : Int16} (nonneg : 0 ≤ a) : a + 1 ≠ 0 := by
  intro zero
  have minus : a = -1 := by
    rw [← Int16.add_sub_cancel a 1, zero]
    decide
  rw [minus] at nonneg
  exact absurd nonneg (by decide)

/-- `sys_link` of two paths; no count of links is negative. -/
theorem sys_link_ends (counts : ∀ n x, node n = some x → 0 ≤ x.nlink) (locals : Locals)
    (old new : List UInt8) : Meets (sys_link sb p locals (some old) (some new)).run k (fun _ => True)
      fun r k' => (r = -1 ∧ Intact sb uses node k'.fs) ∨ r = 0 ∧ k'.proc = k.proc ∧ ∃ d n x y nm name',
        Linked sb uses name node (k.proc p).cwd old new k'.fs d n x y nm name' := by
  refine during_begin (during_cwd ?_)
  have found : Meets (namei sb (k.proc p).cwd old locals.name).run k.fs (fun _ => True) fun r fs' =>
      ∃ name', (∀ m, 0 < uses m → name' m = name m) ∧
        resolve node (At.origin name (k.proc p).cwd old) (components old) = r.map name' ∧
        At sb uses ⟨r.toList, [], []⟩ name' node fs' := by
    refine .seq (here.namex (fun _ => trivial) (fun _ _ _ => trivial) root used) fun r fs₁ walked =>
      .done ?_
    obtain ⟨name', frame, reached, -, after⟩ := walked
    rw [List.append_nil] at after
    exact ⟨name', fun m inUse => frame m (Or.inl inUse), reached, after⟩
  refine during_seq found fun r fs₁ found => ?_
  obtain ⟨name₁, frame₁, leads, here₁⟩ := found
  cases r with
  | none => exact .seq_run rfl (.done (Or.inl ⟨rfl, name₁, here₁⟩))
  | some i =>
    refine during_seq₁ (here₁.ilock (here₁.ref_pos_of_held List.mem_cons_self) List.not_mem_nil
      fun _ => trivial) fun _ fs₂ locked => ?_
    obtain ⟨-, locked⟩ := locked
    obtain ⟨y, isNode, shows, -⟩ := locked.exists_node (i := i) List.mem_cons_self
    refine during_inode ?_
    by_cases directory : (fs₂.inode i).type = T_DIR
    · rw [if_pos directory]
      exact during_seq (locked.iunlockput_linked List.not_mem_nil) fun _ fs₃ after =>
        .seq_run rfl (.done (Or.inl ⟨rfl, name₁, after⟩))
    · rw [if_neg directory]
      have file : y.type ≠ T_DIR := shows.type ▸ directory
      have more : nodeOf { (fs₂.inode i).toDinode with nlink := (fs₂.inode i).nlink + 1 } y.bytes =
          { y with nlink := y.nlink + 1 } := by
        refine Node.ext shows.type shows.major shows.minor ?_ rfl
        show (fs₂.inode i).nlink + 1 = y.nlink + 1
        rw [shows.nlink]
      refine during_update (locked.iupdate List.mem_cons_self isNode more rfl rfl rfl
        (Or.inl (succ_ne_zero_of_nonneg (counts _ y isNode)))) fun _ fs₃ updated => ?_
      refine during_seq₁ (updated.iunlock List.not_mem_nil) fun _ fs₄ linked => ?_
      -- the call goes on with one more link; wherever it fails, the link is taken back
      have bad : ∀ {name' fs'} {succeeds : Int → Kernel → Prop},
          (∀ m, 0 < uses m ∨ m ∈ [i] → name' m = name₁ m) →
          At sb uses ⟨[i], [], []⟩ name' (Function.update node (name₁ i)
            (some { y with nlink := y.nlink + 1 })) fs' →
          Meets (linkBad sb i).run (k.during fs') (fun _ => True) fun r k' =>
            (r = -1 ∧ Intact sb uses node k'.fs) ∨ succeeds r k' := by
        intro name' fs' succeeds frame after
        refine (linkBad_intact isNode (frame i (Or.inr List.mem_cons_self)) after ?_).mono
          fun _ _ intact => Or.inl intact
        refine or_iff_not_imp_left.mpr fun zero => ?_
        rcases here₁.kept isNode (not_not.mp zero) with member | ⟨j, inUse, same⟩
        · cases member
        · obtain rfl := here₁.name_inj (here₁.ref_pos_of_held List.mem_cons_self)
            (here₁.ref_pos_of_uses inUse) same
          exact inUse
      refine during_seq (linked.namex (fun _ => trivial) (fun _ _ _ => trivial) root used)
        fun r fs₅ walked => ?_
      obtain ⟨r, nm⟩ := r
      obtain ⟨name₂, frame₂, reached, -, here₂⟩ := walked
      cases r with
      | none => exact bad frame₂ here₂
      | some dp =>
        have parent : resolveParent _ _ (components new) = some (name₂ dp, key nm) := reached
        rw [At.origin, frame₁ _ used, ← At.origin] at parent
        obtain ⟨x, isParent, isDir⟩ := resolveParent_dir parent
        have link : name₂ i = name₁ i := frame₂ i (Or.inr List.mem_cons_self)
        have apart : name₁ i ≠ name₂ dp := fun same => by
          rw [← same, Function.update_self] at isParent
          cases isParent
          exact file isDir
        refine during_seq₁ (here₂.ilock (here₂.ref_pos_of_held List.mem_cons_self) List.not_mem_nil
          fun _ => trivial) fun _ fs₆ locked => ?_
        obtain ⟨-, here₃⟩ := locked
        refine during_inode (during_inode ?_)
        by_cases device : (fs₆.inode dp).dev ≠ (fs₆.inode i).dev
        · rw [if_pos device]
          exact during_seq (here₃.iunlockput_linked List.not_mem_nil) fun _ fs₇ after =>
            bad frame₂ after
        · rw [if_neg device]
          have held : i ∈ dp :: [i] := List.mem_cons_of_mem _ List.mem_cons_self
          have pos := here₃.ref_pos_of_held held
          have range := here₃.name_range pos
          have number : (fs₆.inode i).inum = name₁ i := (here₃.named pos).trans link
          rw [link] at range
          rw [number]
          refine during_seq (here₃.dirlink_ends List.mem_cons_self (fun m member => ?_) isParent isDir
            range.1 range.2 width fun _ _ => apart) fun r fs₇ entered => ?_
          · exact List.mem_of_mem_take (i := 1) member
          · obtain ⟨name₃, frame₃, ⟨failed, after⟩ | ⟨done, absent, after⟩⟩ := entered
            · rw [if_pos failed]
              refine during_seq (after.iunlockput_linked List.not_mem_nil) fun _ fs₈ put => ?_
              refine bad (fun m inUse => ?_) put
              exact (frame₃ m (inUse.imp_right (List.mem_cons_of_mem _))).trans (frame₂ m inUse)
            · rw [if_neg done]
              refine during_seq (after.iunlockput_linked List.not_mem_nil) fun _ fs₈ put => ?_
              refine during_seq (put.iput_linked List.not_mem_nil) fun _ fs₉ last => ?_
              rw [Function.update_of_ne apart.symm] at isParent
              exact .seq_run rfl (.done (Or.inr ⟨rfl, rfl, name₂ dp, name₁ i, x, y, nm, name₃,
                leads, isNode, file, parent, apart, isParent, isDir, absent, range.1, range.2,
                fun m inUse => (frame₃ m (Or.inl inUse)).trans
                  ((frame₂ m (Or.inl inUse)).trans (frame₁ m inUse)), last⟩))

/-- `sys_link` that fails. -/
theorem sys_link_fails (counts : ∀ n x, node n = some x → 0 ≤ x.nlink) (locals : Locals)
    (old new : Option (List UInt8)) : Meets (sys_link sb p locals old new).run k (fun _ => True)
      fun r k' => r = -1 → Intact sb uses node k'.fs := by
  cases old with
  | none => exact .done fun _ => ⟨name, here⟩
  | some old =>
    cases new with
    | none => exact .done fun _ => ⟨name, here⟩
    | some new =>
      refine (sys_link_ends here root width used counts locals old new).mono fun r k' ends minus => ?_
      rcases ends with ⟨-, intact⟩ | ⟨rfl, -⟩
      · exact intact
      · exact absurd minus (by decide)

omit here root width used in
/-- From the clearing of the entry on, `sys_unlink` does not fail. -/
theorem unlinkEntry_zero (type : Int16) (off : Nat) : Meets (unlinkEntry sb dp i type off).run k
    (fun _ => True) fun r _ => r = 0 := by
  have last : ∀ k, Meets (unlinkEnd sb dp i).run k (fun _ => True) fun r _ => r = 0 := fun k =>
    .seq Meets.trivial fun _ _ _ => .seq Meets.trivial fun _ _ _ => .seq Meets.trivial fun _ _ _ =>
      .seq Meets.trivial fun _ _ _ => .seq Meets.trivial fun _ _ _ => .done rfl
  refine .seq Meets.trivial fun r k₁ _ => ?_
  by_cases short : r ≠ direntSize
  · rw [if_pos short]
    exact .atomic (.of_error rfl trivial)
  · rw [if_neg short]
    by_cases directory : type = T_DIR
    · rw [if_pos directory]
      exact .seq Meets.trivial fun _ _ _ => .seq Meets.trivial fun _ k₂ _ => last k₂
    · rw [if_neg directory]
      exact last k₁

omit width in
theorem sys_unlink_fails (locals : Locals) (path : Option (List UInt8)) :
    Meets (sys_unlink sb p locals path).run k (fun _ => True) fun r k' =>
      r = -1 → Intact sb uses node k'.fs := by
  cases path with
  | none => exact .done fun _ => ⟨name, here⟩
  | some path =>
    refine during_begin (during_cwd ?_)
    refine during_seq (here.namex (fun _ => trivial) (fun _ _ _ => trivial) root used)
      fun r fs₁ walked => ?_
    obtain ⟨r, nm⟩ := r
    obtain ⟨name₁, -, reached, -, here₁⟩ := walked
    have bad : ∀ {dp name' fs'}, At sb uses ⟨[dp], [dp], []⟩ name' node fs' →
        Meets (unlinkBad sb dp).run (k.during fs') (fun _ => True) fun r k' =>
          r = -1 → Intact sb uses node k'.fs := fun {dp name' fs'} locked =>
      during_seq (locked.iunlockput_linked List.not_mem_nil) fun _ fs'' after =>
        .seq_run rfl (.done fun _ => ⟨name', after⟩)
    cases r with
    | none => exact .seq_run rfl (.done fun _ => ⟨name₁, here₁⟩)
    | some dp =>
      have parent : resolveParent _ _ (components path) = some (name₁ dp, key nm) := reached
      obtain ⟨x, isNode, isDir⟩ := resolveParent_dir parent
      refine during_seq₁ (here₁.ilock (here₁.ref_pos_of_held List.mem_cons_self) List.not_mem_nil
        fun _ => trivial) fun _ fs₂ locked => ?_
      obtain ⟨-, here₂⟩ := locked
      dsimp only
      by_cases special : namecmp nm dot = 0 ∨ namecmp nm dotdot = 0
      · rw [if_pos special]
        exact bad here₂
      · rw [if_neg special]
        cases found : lookup x.bytes (key nm) with
        | none =>
          refine during_seq (here₂.dirlookup_absent isNode isDir List.mem_cons_self found)
            fun r fs₃ same => ?_
          obtain ⟨rfl, rfl⟩ := same
          exact bad here₂
        | some entry =>
          obtain ⟨n, j⟩ := entry
          refine during_seq (here₂.dirlookup_found isNode isDir List.mem_cons_self found fun _ => trivial)
            fun r fs₃ entered => ?_
          obtain ⟨i, name₂, rfl, isN, same, here₃⟩ := entered
          have parent' : name₂ dp = name₁ dp := same dp (here₂.ref_pos_of_held List.mem_cons_self)
          have notDot : key nm ≠ key dot := fun isDot =>
            special (Or.inl ((namecmp_eq_zero _ _).mpr isDot))
          have notDotdot : key nm ≠ key dotdot := fun isDotdot =>
            special (Or.inr ((namecmp_eq_zero _ _).mpr isDotdot))
          have apart : i ∉ [dp] := fun member => by
            obtain rfl := List.mem_singleton.mp member
            exact ((here₂.ok isNode).dir isDir).apart (lookup_eq_some.mp found).1 notDot notDotdot
              (isN.symm.trans parent')
          refine during_seq₁ (here₃.ilock (here₃.ref_pos_of_held List.mem_cons_self) apart
            fun _ => trivial) fun _ fs₄ both => ?_
          obtain ⟨-, both⟩ := both
          obtain ⟨y, isFound, shows, -⟩ := both.exists_node (i := i) List.mem_cons_self
          have rest : ∀ type, Meets (unlinkEntry sb dp i type (direntSize * j)).run (k.during fs₄)
              (fun _ => True) fun r k' => r = -1 → Intact sb uses node k'.fs := fun type =>
            (unlinkEntry_zero type _).mono fun r k' zero failed => by
              rw [zero] at failed
              exact absurd failed (by decide)
          refine during_inode ?_
          by_cases dead : (fs₄.inode i).nlink < 1
          · rw [if_pos dead]
            exact .atomic (.of_error rfl trivial)
          · rw [if_neg dead]
            by_cases directory : (fs₄.inode i).type = T_DIR
            · have dir := both.openDir List.mem_cons_self isFound (shows.type.symm.trans directory)
              obtain ⟨empty, run, -⟩ := run_isdirempty dir
              rw [if_pos directory]
              refine .seq_run (run_busy run) ?_
              by_cases notEmpty : (!empty) = true
              · rw [if_pos notEmpty]
                exact during_seq (both.iunlockput_linked apart) fun _ fs₅ after => bad after
              · rw [if_neg notEmpty]
                exact rest _
            · rw [if_neg directory]
              refine .seq_run (a := false) rfl ?_
              rw [if_neg Bool.false_ne_true]
              exact rest _

/-- The calls that make and remove names of files and directories. -/
def Syscall.editsNames : Syscall → Bool
  | .sys_link _ _ _ | .sys_unlink _ _ | .sys_mkdir _ _ | .sys_mknod _ _ _ _ => true
  | _ => false

/-- **A call that fails leaves every inode as it was**: its type and device, its links, the names and
numbers of a directory and the bytes of a file, and whether it is allocated. Nothing that was held is lost. -/
theorem failed_calls_traceless (counts : ∀ n x, node n = some x → 0 ≤ x.nlink) {O_NOFOLLOW : UInt32}
    {call : Syscall} (edits : call.editsNames = true) {k' : Kernel}
    (fails : (call.script sb O_NOFOLLOW p).run k = .ok (-1, k')) :
    (∀ n, nodeAt sb k'.fs.disk n = nodeAt sb k.fs.disk n) ∧
    (∀ n route, resolve (nodeAt sb k'.fs.disk) n (components route) =
      resolve (nodeAt sb k.fs.disk) n (components route)) ∧
    ∃ name', At sb uses ⟨[], [], []⟩ name' node k'.fs := by
  have intact : Intact sb uses node k'.fs := by
    cases call with
    | sys_link locals old new =>
      exact (sys_link_fails here root width used counts locals old new).ends _ _ fails rfl
    | sys_unlink locals path => exact (sys_unlink_fails here root used locals path).ends _ _ fails rfl
    | sys_mkdir locals path => exact (sys_mkdir_fails here root width used locals path).ends _ _ fails rfl
    | sys_mknod locals major minor path =>
      exact (sys_mknod_fails here root width used locals major minor path).ends _ _ fails rfl
    | _ => exact absurd edits Bool.false_ne_true
  obtain ⟨name', after⟩ := intact
  have same : ∀ n, nodeAt sb k'.fs.disk n = nodeAt sb k.fs.disk n := fun n =>
    (after.nodes n).trans (here.nodes n).symm
  exact ⟨same, fun n route => by rw [funext same], name', after⟩

end Calls

theorem rootDisk_counts (n : Nat) (x : Node) (isNode : nodeAt rootSuperblock rootDisk n = some x) :
    0 ≤ x.nlink := by
  rw [nodeAt_rootDisk] at isNode
  split_ifs at isNode
  cases isNode
  decide

/-- A directory for which no block is left. -/
theorem failed_calls_traceless_small : ∃ k', (sys_mkdir rootSuperblock ⟨0, by decide⟩ ⟨fun _ => 0, []⟩
      (some [97])).run rootKernel = .ok (-1, k') ∧
    (∀ n, nodeAt rootSuperblock k'.fs.disk n = nodeAt rootSuperblock rootKernel.fs.disk n) ∧
    (∀ n route, resolve (nodeAt rootSuperblock k'.fs.disk) n (components route) =
      resolve (nodeAt rootSuperblock rootKernel.fs.disk) n (components route)) ∧
    ∃ name', At rootSuperblock (fun i => if i = firstIp then 1 else 0) ⟨[], [], []⟩ name'
      (nodeAt rootSuperblock rootDisk) k'.fs := by
  have evaluated : ((sys_mkdir rootSuperblock ⟨0, by decide⟩ ⟨fun _ => 0, []⟩ (some [97])).run
      rootKernel).toOption.any (fun result => decide (result.1 = -1)) = true := by
    decide +kernel
  obtain ⟨r, k', run, isMinus⟩ := exists_of_any evaluated
  obtain rfl := of_decide_eq_true isMinus
  have used : (0 : Int) < if (rootKernel.proc ⟨0, by decide⟩).cwd = firstIp then 1 else 0 := by
    decide
  exact ⟨k', run, @failed_calls_traceless _ _ _ _ _ _ rootKernel_at (by decide) (by decide) used
    rootDisk_counts 0x800 (.sys_mkdir ⟨fun _ => 0, []⟩ (some [97])) rfl k' run⟩

end Csc3150.Namespace
