/-
**Making inodes and names.**

* `At.ialloc` — a new inode, and the lock on it;
* `At.create_split`, `At.createNew_made` — `create` up to the entries of a new inode, for every type;
* `At.createNew` — `create` in a directory that does not have the name: the inode and its entry are both
  made, or neither;
* `At.create` — the whole of `create`, for an inode that is no directory.
-/

import Csc3150.Namespace.Space

namespace Csc3150.Namespace

open ByteBuffer FileSystem Outcome Program Search
open Program.Script (atomic)

/-- The last component of a path is looked up in a directory. -/
theorem resolveParent_dir {node : Nat → Option Node} {d : Nat} {c : List UInt8}
    {cs : List (List UInt8)} : ∀ {n : Nat}, resolveParent node n cs = some (d, c) →
      ∃ x, node d = some x ∧ x.type = T_DIR := by
  induction cs with
  | nil =>
    intro n reached
    cases reached
  | cons first rest ih =>
    intro n reached
    cases rest with
    | nil =>
      obtain ⟨x, isNode, reached⟩ := Option.bind_eq_some_iff.mp reached
      split_ifs at reached with isDir
      cases reached
      exact ⟨x, isNode, isDir⟩
    | cons second rest =>
      obtain ⟨m, -, reached⟩ := Option.bind_eq_some_iff.mp reached
      exact ih reached

/-- A node that `ialloc` has just made. -/
def Node.fresh (type : Int16) : Node := ⟨type, 0, 0, 0, []⟩

namespace At

variable {sb : Superblock} {uses : Ip → Int} {hand : Hand} {held locks : List Ip} {loose : List Nat}
  {name : Ip → Nat} {node : Nat → Option Node} {fs fs' : Fs} {i j dp : Ip} {x : Node} {nm : Name}
  {stops : Halt → Prop} {n k : Nat} {type major minor : Int16}

theorem nodeOk_fresh (typed : type ≠ 0) : NodeOk sb n (Node.fresh type) := by
  have none : ∀ k, Namespace.entry [] k = none := fun k => if_neg fun live => Nat.not_lt_zero k live.1
  refine ⟨typed, Nat.zero_le _, fun _ => ⟨rfl, fun here => ?_, fun here => ?_⟩⟩ <;>
  · rw [Node.fresh, none] at here
    cases here

/-- A free entry of the table becomes that of a new inode, which is locked. -/
theorem fresh (here : At sb uses ⟨held, locks, loose⟩ name node fs)
    (live : ∀ m ∈ held, node (name m) ≠ none) (typed : type ≠ 0) {after : Disk} (absent : node n = none)
    (idle : (fs.inode i).ref = 0) (touches : Touches sb n fs.disk after)
    (own : dinode sb after n = { Dinode.zero with type := type }) {ip : Inode} (number : ip.inum = n)
    (positive : 0 < n) (inside : n < sb.ninodes)
    (entry : ip.ref = 1 ∧ ip.lock = true ∧ ip.valid = true) (sound : (fs.put i after ip).Sound sb) :
    i ∉ held ∧ uses i = 0 ∧ (∀ m, 0 < (fs.inode m).ref → Function.update name i n m = name m) ∧
    At sb uses ⟨i :: held, i :: locks, n :: loose⟩ (Function.update name i n)
      (Function.update node n (some (Node.fresh type))) (fs.put i after ip) := by
  have nonneg := here.nonneg i
  have count := here.refs i
  rw [idle] at count
  have unused : uses i = 0 ∧ held.count i = 0 := by
    dsimp only at count
    omega
  have notHeld : i ∉ held := List.count_eq_zero.mp unused.2
  have apart : ∀ j, 0 < (fs.inode j).ref → j ≠ i := fun j pos same => by
    rw [same, idle] at pos
    exact lt_irrefl _ pos
  have self : Function.update name i n i = n := Function.update_self _ _ _
  have old : ∀ j, 0 < (fs.inode j).ref → Function.update name i n j = name j := fun j pos =>
    Function.update_of_ne (apart j pos) _ _
  -- no entry stands for an inode that is not allocated
  have fresh : ∀ j, 0 < (fs.inode j).ref → name j ≠ n := fun j pos same => by
    have total := here.refs j
    by_cases used : 0 < uses j
    · exact here.used used (same ▸ absent)
    · have := here.nonneg j
      have member : j ∈ held := List.count_pos_iff.mp (by dsimp only at total; omega)
      exact live j member (same ▸ absent)
  have selfEntry := fs.put_self i after ip
  have otherEntry : ∀ {j}, j ≠ i → (fs.put i after ip).inode j = fs.inode j := fun different =>
    fs.put_of_ne i after ip different
  refine ⟨notHeld, unused.1, old, sound, fun m => ?_, fun {m x} isNode => ?_, here.nonneg,
    fun j => ?_, fun j => ?_, fun {j} pos => ?_, fun {j} used => ?_, fun {m x} isNode zero => ?_,
    fun {m} member => ?_, fun {j x} pos isNode zero => ?_⟩
  · by_cases isN : m = n
    · subst isN
      have inUse : InUse sb (dinode sb after) m := ⟨positive, inside, by rw [own]; exact typed⟩
      rw [Function.update_self]
      show nodeAt sb after m = _
      rw [nodeAt_of_inUse inUse, content, own]
      rfl
    · rw [Function.update_of_ne isN, ← here.nodes]
      exact nodeAt_touches touches here.bounded isN
  · by_cases isN : m = n
    · subst isN
      rw [Function.update_self] at isNode
      cases isNode
      exact nodeOk_fresh typed
    · rw [Function.update_of_ne isN] at isNode
      exact here.ok isNode
  · by_cases isI : j = i
    · subst isI
      rw [selfEntry, entry.1, List.count_cons_self, unused.1, unused.2]
      rfl
    · rw [otherEntry isI, here.refs, List.count_cons_of_ne (Ne.symm isI)]
  · by_cases isI : j = i
    · subst isI
      rw [selfEntry]
      exact iff_of_true entry.2.1 List.mem_cons_self
    · rw [otherEntry isI, here.locked]
      exact (List.mem_cons.trans (or_iff_right isI)).symm
  · by_cases isI : j = i
    · subst isI
      rw [selfEntry, self, number]
    · rw [otherEntry isI] at pos ⊢
      rw [old j pos]
      exact here.named pos
  · have pos := here.ref_pos_of_uses used
    rw [old j pos, Function.update_of_ne (fresh j pos)]
    exact here.used used
  · by_cases isN : m = n
    · exact Or.inl (isN ▸ List.mem_cons_self)
    · rw [Function.update_of_ne isN] at isNode
      rcases here.kept isNode zero with member | ⟨j, used, same⟩
      · exact Or.inl (List.mem_cons_of_mem _ member)
      · exact Or.inr ⟨j, used, (old j (here.ref_pos_of_uses used)).trans same⟩
  · rcases List.mem_cons.mp member with rfl | member
    · exact ⟨i, List.mem_cons_self, self⟩
    · obtain ⟨j, inHand, same⟩ := here.loose member
      exact ⟨j, List.mem_cons_of_mem _ inHand,
        (old j (here.ref_pos_of_held inHand)).trans same⟩
  · by_cases isI : j = i
    · subst isI
      rw [selfEntry]
      exact entry.2.2
    · rw [otherEntry isI] at pos ⊢
      rw [old j pos, Function.update_of_ne (fresh j pos)] at isNode
      exact here.seen pos isNode zero

/-- `ialloc` finds no free inode, or makes one that can be locked. -/
theorem ialloc (here : At sb uses ⟨held, locks, loose⟩ name node fs)
    (live : ∀ m ∈ held, node (name m) ≠ none) (typed : type ≠ 0) (full : stops .igetNoInodes) :
    Meets (Namespace.ialloc sb ROOTDEV type).run fs stops fun r fs' => (r = none ∧ fs' = fs ∧
        ∀ n, 0 < n → n < sb.ninodes → (dinode sb fs.disk n).type ≠ 0) ∨
      ∃ i n fs'', r = some i ∧ FileSystem.ilock sb i fs' = .ok ((), fs'') ∧ fs''.disk = fs'.disk ∧
        ((fs''.inode i).addrs = fun _ => 0) ∧
        0 < n ∧ n < sb.ninodes ∧ node n = none ∧ i ∉ held ∧ uses i = 0 ∧
        (∀ m, 0 < (fs.inode m).ref → Function.update name i n m = name m) ∧
        At sb uses ⟨i :: held, i :: locks, n :: loose⟩ (Function.update name i n)
          (Function.update node n (some (Node.fresh type))) fs'' := by
  rw [run_ialloc]
  refine ⟨fun r fs' run => ?_, fun error run => ?_⟩
  · rcases ialloc_ends here.sound run with ⟨rfl, rfl, none⟩ |
      ⟨i, n, after, rfl, positive, inside, free, touches, own, sound, get⟩
    · exact Or.inl ⟨rfl, rfl, none⟩
    · have absent : node n = .none := by
        rw [← here.nodes, nodeAt_eq_none]
        exact fun inUse => inUse.2.2 free
      have sound' := iget_sound sound positive inside get
      rcases iget_ends get with ⟨pos, -, number, -⟩ | ⟨idle, -, rfl⟩
      · exfalso
        have isName : name i = n := (here.named pos).symm.trans number
        have total := here.refs i
        by_cases used : 0 < uses i
        · exact here.used used (isName ▸ absent)
        · have pos : 0 < (fs.inode i).ref := pos
          have member : i ∈ held := List.count_pos_iff.mp (by dsimp only at total; omega)
          exact live i member (isName ▸ absent)
      · have idle : (fs.inode i).ref = 0 := idle
        have unlocked : (fs.inode i).lock = false := by
          refine Bool.eq_false_of_not_eq_true fun isLocked => ?_
          have := (here.sound.table.locked isLocked).1
          omega
        have locks : FileSystem.ilock sb i (Fs.setInode { fs with disk := after } i
            { fs.inode i with dev := ROOTDEV, inum := n, ref := 1, valid := false }) =
            .ok ((), fs.put i after { fs.inode i with
              dev := ROOTDEV, inum := n, ref := 1, lock := true, valid := true,
              toDinode := dinode sb after n }) := by
          rw [FileSystem.ilock]
          simp only [Fs.setInode_self]
          rw [if_neg (by decide), if_neg (by rw [unlocked]; exact Bool.false_ne_true),
            if_neg Bool.false_ne_true, if_neg]
          · simp only [Fs.setInode, Fs.put, Function.update_idem]
          · show ¬ (dinode sb after n).type = 0
            rw [own]
            exact typed
        obtain ⟨notHeld, unused, same, made⟩ := here.fresh live typed absent idle touches own rfl
          positive inside ⟨rfl, rfl, rfl⟩ (ilock_sound sound' locks)
        refine Or.inr ⟨i, n, _, rfl, locks, rfl, ?_, positive, inside, absent, notHeld, unused, same,
          made⟩
        rw [Fs.put_self, own]
        rfl
  · rw [FileSystem.ialloc] at run
    dsimp only at run
    split at run
    · rcases bind_eq_error.mp run with stop | ⟨_, _, rest⟩
      · obtain ⟨rfl, -⟩ := iget_stops stop
        exact full
      · cases rest
    · cases run

theorem swapLocks (here : At sb uses ⟨held, i :: j :: locks, loose⟩ name node fs) :
    At sb uses ⟨held, j :: i :: locks, loose⟩ name node fs :=
  here.loose_subset (fun _ => here.loose) (fun _ => Or.inl) (fun _ => rfl) fun _ =>
    (List.Perm.swap i j locks).mem_iff

/-- An inode that has links is not loose. -/
theorem tighten (here : At sb uses ⟨held, locks, n :: loose⟩ name node fs)
    (linked : ∀ x, node n = some x → x.nlink ≠ 0) : At sb uses ⟨held, locks, loose⟩ name node fs :=
  { here with
    kept := fun {m x} isNode zero => by
      refine (here.kept isNode zero).imp_left fun member => ?_
      refine (List.mem_cons.mp member).resolve_left fun same => ?_
      exact linked x (same ▸ isNode) zero
    loose := fun member => here.loose (List.mem_cons_of_mem _ member) }

/-- The label `fail` of `create`: the new inode is freed again. -/
theorem createFail (here : At sb uses ⟨i :: dp :: held, [i, dp], []⟩ name node fs) (apart : i ≠ dp)
    (isNode : node (name i) = some x) (last : uses i + (dp :: held).count i = 0) :
    Meets (Namespace.createFail sb dp i).run fs stops fun r fs' => r = none ∧
      At sb uses ⟨held, [], []⟩ name (Function.update node (name i) none) fs' := by
  have notOther : i ∉ [dp] := fun member => apart (List.mem_singleton.mp member)
  obtain ⟨shows, -⟩ := here.shows List.mem_cons_self isNode
  have nonneg := here.nonneg i
  have notHeld : i ∉ dp :: held := List.count_eq_zero.mp (by omega)
  let x' : Node := { x with nlink := 0 }
  have zeroed : nodeOf { (fs.inode i).toDinode with nlink := 0 } x.bytes = x' :=
    Node.ext shows.type shows.major shows.minor rfl rfl
  refine .seq_run rfl (.seq (.atomic ((here.loosen List.mem_cons_self).iupdate List.mem_cons_self
    isNode zeroed rfl rfl rfl (Or.inr (Or.inl List.mem_cons_self)))) fun _ fs₁ updated => ?_)
  refine .seq (.seq (.atomic (updated.iunlock notOther)) fun _ fs₂ unlocked =>
    unlocked.iput notOther) fun _ fs₃ freed => ?_
  have gone : ([name i].filter fun n => n ≠ name i ∨ i ∈ dp :: held) = [] :=
    List.filter_eq_nil_iff.mpr fun n member => by
      rw [List.mem_singleton.mp member]
      simp [notHeld]
  rw [if_neg (by omega), gone, reclaim_unlinked (x := x') (Function.update_self _ _ _) rfl,
    Function.update_idem] at freed
  exact .seq (freed.iunlockput_linked List.not_mem_nil) fun _ fs₄ after => .done ⟨rfl, after⟩

theorem iupdate_entry {change : Dinode} (empty : change.addrs = fun _ => 0) :
    Ensures (Fs.iupdate sb i) (fs.setInode i { fs.inode i with toDinode := change })
      fun _ fs' => (fs'.inode i).addrs = fun _ => 0 := by
  intro _ fs' run
  cases run
  exact (congrArg (fun ip : Inode => ip.addrs) (fs.setInode_self i _)).trans empty

/-! ### The inode that `create` makes -/

/-- A new inode with its fields set, which has no name, made on the disk `start`. -/
structure Made (sb : Superblock) (uses : Ip → Int) (held : List Ip) (dp : Ip) (name : Ip → Nat)
    (node : Nat → Option Node) (start : Disk) (x : Node) (i : Ip) (name' : Ip → Nat) (fs : Fs) :
    Prop where
  order : At sb uses ⟨i :: dp :: held, [i, dp], []⟩ name' (Function.update node (name' i) (some x)) fs
  blank : (fs.inode i).addrs = fun _ => 0
  free : node (name' i) = none
  fresh : i ∉ dp :: held
  unused : uses i = 0
  frame : ∀ m, 0 < uses m ∨ m ∈ dp :: held → name' m = name m
  keeps : KeepsMap sb (name dp) start fs.disk

/-- `createNew` up to the entries of the new inode: it has found no free inode, or goes on with one. -/
theorem createNew_made (here : At sb uses ⟨dp :: held, [dp], []⟩ name node fs)
    (live : ∀ m ∈ held, node (name m) ≠ none) (isNode : node (name dp) = some x) (typed : type ≠ 0)
    (full : stops .igetNoInodes) {post : Option Ip → Fs → Prop}
    (none : ∀ fs', (∀ n, 0 < n → n < sb.ninodes → (dinode sb fs.disk n).type ≠ 0) →
      At sb uses ⟨held, [], []⟩ name node fs' → post none fs')
    (then_ : ∀ i name' fs', Made sb uses held dp name node fs.disk ⟨type, major, minor, 1, []⟩ i name' fs' →
      Meets (do
        let made ← if type = T_DIR then createDots sb i dp else pure true
        if made = false then Namespace.createFail sb dp i
        else
          let ip ← atomic (Namespace.inode i)
          let r ← Namespace.dirlink sb dp nm ip.inum
          if r < 0 then Namespace.createFail sb dp i
          else
            if type = T_DIR then
              atomic (assign dp fun d => { d with nlink := d.nlink + 1 })
              atomic (Fs.iupdate sb dp)
            Namespace.iunlockput sb dp
            return some i).run fs' stops post) :
    Meets (Namespace.createNew sb dp nm type major minor).run fs stops post := by
  have pos := here.ref_pos_of_held (i := dp) List.mem_cons_self
  have device : (fs.inode dp).dev = ROOTDEV := here.dev pos
  have live' : ∀ m ∈ dp :: held, node (name m) ≠ Option.none := by
    intro m member
    rcases List.mem_cons.mp member with rfl | member
    · rw [isNode]
      exact Option.some_ne_none x
    · exact live m member
  refine .seq_run (a := fs.inode dp) rfl ?_
  rw [device]
  have keeps : Ensures (Namespace.ialloc sb ROOTDEV type).run fs fun _ fs' =>
      KeepsMap sb (name dp) fs.disk fs'.disk := by
    rw [run_ialloc]
    exact KeepsMap.ialloc here.sound (here.inUse isNode)
  refine .seq ((here.ialloc live' typed full).also keeps) fun r fs₁ allocated => ?_
  obtain ⟨⟨rfl, rfl, used⟩ |
    ⟨i, n, fs₂, rfl, locks, same₂, empty, positive, inside, free, notHeld, unused, same, made⟩, keeps⟩ :=
    allocated
  · exact .seq (here.iunlockput_linked List.not_mem_nil) fun _ fs₂ after => .done (none fs₂ used after)
  have self : Function.update name i n i = n := Function.update_self _ _ _
  generalize Function.update name i n = name' at *
  subst self
  have isFresh : Function.update node (name' i) (some (Node.fresh type)) (name' i) =
      some (Node.fresh type) := Function.update_self _ _ _
  obtain ⟨shows, -⟩ := made.shows List.mem_cons_self isFresh
  have other : name dp ≠ name' i := fun equal => by
    rw [equal, free] at isNode
    cases isNode
  have parent : Function.update node (name' i) (some (Node.fresh type)) (name dp) = some x := by
    rw [Function.update_of_ne other, isNode]
  dsimp only
  refine .seq_run (by rw [Script.run_atomic, locks]) (.seq_run rfl ?_)
  have linked : nodeOf { (fs₂.inode i).toDinode with major := major, minor := minor, nlink := 1 } [] =
      ⟨type, major, minor, 1, []⟩ := Node.ext shows.type rfl rfl rfl rfl
  refine .seq (.atomic (((made.iupdate List.mem_cons_self isFresh linked rfl rfl rfl
    (Or.inl (show (1 : Int16) ≠ 0 by decide))).also (iupdate_entry empty)).also
      (made.iupdate_keepsMap List.mem_cons_self parent other))) fun _ fs₃ updated => ?_
  obtain ⟨⟨updated, blank⟩, kept⟩ := updated
  rw [Function.update_idem] at updated
  have ready := updated.tighten fun x isNode => by
    rw [Function.update_self] at isNode
    cases isNode
    exact (show (1 : Int16) ≠ 0 by decide)
  rw [same₂] at kept
  exact then_ i name' fs₃ ⟨ready, blank, free, notHeld, unused, fun m inUse => same m
    (inUse.elim here.ref_pos_of_uses here.ref_pos_of_held), keeps.trans kept⟩

/-- `create` in a directory without the name, for an inode that is no directory. It fails exactly when
there is no free inode or no room for the entry, and else takes the blocks of the entry. -/
theorem createNew (here : At sb uses ⟨dp :: held, [dp], []⟩ name node fs)
    (live : ∀ m ∈ held, node (name m) ≠ none) (isNode : node (name dp) = some x)
    (isDir : x.type = T_DIR) (absent : lookup x.bytes (key nm) = none) (typed : type ≠ 0)
    (file : type ≠ T_DIR) (width : sb.ninodes ≤ 2 ^ 16) (full : stops .igetNoInodes) :
    Meets (Namespace.createNew sb dp nm type major minor).run fs stops fun r fs' =>
      (r = none ∧ ¬ CanLink sb fs.disk (name dp) x.bytes ∧
        ∃ name', (∀ m, 0 < uses m ∨ m ∈ held → name' m = name m) ∧
        At sb uses ⟨held, [], []⟩ name' node fs') ∨
      ∃ i name', r = some i ∧ CanLink sb fs.disk (name dp) x.bytes ∧
        (freeBlocks sb fs'.disk).ncard + (entrySlots sb fs.disk (name dp) x.bytes).ncard =
          (freeBlocks sb fs.disk).ncard ∧ ((fs'.inode i).addrs = fun _ => 0) ∧
        node (name' i) = none ∧ uses i = 0 ∧ i ∉ held ∧
        (∀ m, 0 < uses m ∨ m ∈ held → name' m = name m) ∧
        At sb uses ⟨i :: held, [i], []⟩ name' (Function.update
          (Function.update node (name' i) (some ⟨type, major, minor, 1, []⟩)) (name dp)
          (some { x with bytes := addEntry x.bytes nm (name' i) })) fs' := by
  refine here.createNew_made live isNode typed full
    (fun fs' used after => Or.inl ⟨rfl, fun can => ?_, name, fun _ _ => rfl, after⟩)
    fun i name' fs₁ made => ?_
  · obtain ⟨n, positive, inside, free⟩ := can.inode
    exact used n positive inside free
  obtain ⟨ready, blank, free, notHeld, unused, same, keeps⟩ := made
  have parent : name' dp = name dp := same dp (Or.inr List.mem_cons_self)
  have frame : ∀ m, 0 < uses m ∨ m ∈ held → name' m = name m := fun m inUse =>
    same m (inUse.imp_right (List.mem_cons_of_mem _))
  have apart : i ≠ dp := fun equal => notHeld (equal ▸ List.mem_cons_self)
  have other : name dp ≠ name' i := fun equal => by
    rw [equal, free] at isNode
    cases isNode
  have isParent : Function.update node (name' i) (some ⟨type, major, minor, 1, []⟩) (name' dp) =
      some x := by
    rw [parent, Function.update_of_ne other, isNode]
  have pos := ready.ref_pos_of_held (i := i) List.mem_cons_self
  obtain ⟨positive, inside⟩ := ready.name_range pos
  have unallocated : (dinode sb fs.disk (name' i)).type = 0 := by
    rw [← here.nodes, nodeAt_eq_none] at free
    by_contra typed
    exact free ⟨positive, inside, typed⟩
  rw [if_neg file]
  refine .seq_run (a := true) rfl ?_
  dsimp only
  rw [if_neg Bool.false_ne_true.symm]
  refine .seq_run (a := fs₁.inode i) rfl ?_
  rw [show (fs₁.inode i).inum = name' i from ready.named pos]
  have locked : dp ∈ [i, dp] := List.mem_cons_of_mem _ List.mem_cons_self
  have takes : Ensures (Namespace.dirlink sb dp nm (name' i)).run fs₁ _ :=
    ready.dirlink_takes locked isParent isDir absent
  rw [parent, keeps.hasRoom, keeps.entrySlots, keeps.free] at takes
  refine .seq ((ready.dirlink_new isParent isDir locked absent positive inside width
    fun _ _ => by rw [parent]; exact other.symm).also takes) fun r fs₂ entered => ?_
  obtain ⟨⟨same₂, entered⟩, succeeds, fails⟩ := entered
  rcases entered with ⟨rfl, entered⟩ | ⟨rfl, entered⟩
  · rw [if_neg (by decide), if_neg file]
    have alone : dp ∉ [i] := fun member => apart (List.mem_singleton.mp member).symm
    refine .seq ((entered.swap.swapLocks.iunlockput_linked alone).also
      (iunlockput_entries.both (entered.swap.swapLocks.iunlockput_quiet alone))) fun _ fs₃ after => ?_
    obtain ⟨after, same₃, quiet⟩ := after
    obtain ⟨room, count⟩ := succeeds rfl
    refine .done (Or.inr ⟨i, name', rfl, ⟨room, name' i, positive, inside, unallocated⟩, ?_,
      by rw [same₃ i apart, same₂ i apart, blank], free, unused,
      fun member => notHeld (List.mem_cons_of_mem _ member), frame, ?_⟩)
    · rwa [quiet]
    · rwa [← parent]
  · rw [if_pos (by decide)]
    have none : (dp :: held).count i = 0 := List.count_eq_zero.mpr notHeld
    refine (entered.createFail apart (Function.update_self _ _ _)
      (by rw [unused, none]; rfl)).mono fun r fs₃ after => ?_
    obtain ⟨rfl, after⟩ := after
    refine Or.inl ⟨rfl, fun can => fails rfl can.toHasRoom, name', frame, ?_⟩
    rwa [Function.update_idem, Function.update_eq_self_iff.mpr free.symm] at after

/-- `create` up to where a new inode is made: it fails, finds a file or a device, or goes on in a locked
directory that does not have the name. -/
theorem create_split (here : At sb uses ⟨held, [], []⟩ name node fs)
    (live : ∀ m ∈ held, node (name m) ≠ none) (root : ROOTINO < sb.ninodes) {cwd : Ip}
    (used : 0 < uses cwd) {path : List UInt8} (full : stops .igetNoInodes) (untyped : stops .ilockNoType)
    {post : Option Ip → Fs → Prop}
    (fails : ∀ name' fs', (∀ m, 0 < uses m ∨ m ∈ held → name' m = name m) →
      (∀ d c x, resolveParent node (origin name cwd path) (components path) = some (d, c) →
        node d = some x → lookup x.bytes c ≠ none) →
      At sb uses ⟨held, [], []⟩ name' node fs' → post none fs')
    (finds : type = T_FILE → ∀ i name' fs', (∀ m, 0 < uses m ∨ m ∈ held → name' m = name m) →
      At sb uses ⟨i :: held, [i], []⟩ name' node fs' → post (some i) fs')
    (makes : ∀ dp nm' name' x fs', (∀ m, 0 < uses m ∨ m ∈ held → name' m = name m) →
      resolveParent node (origin name cwd path) (components path) = some (name' dp, key nm') →
      node (name' dp) = some x → x.type = T_DIR → lookup x.bytes (key nm') = none →
      fs'.disk = fs.disk → (∀ m ∈ held, node (name' m) ≠ none) → At sb uses ⟨dp :: held, [dp], []⟩ name' node fs' →
      Meets (Namespace.createNew sb dp nm' type major minor).run fs' stops post) :
    Meets (Namespace.create sb cwd path type major minor nm).run fs stops post := by
  refine .seq (here.namex (fun _ => full) (fun _ _ _ => untyped) root used) fun r fs₁ walked => ?_
  obtain ⟨r, nm'⟩ := r
  obtain ⟨name₁, frame₁, reached, quiet₁, here₁⟩ := walked
  cases r with
  | none =>
    have nowhere : resolveParent node (origin name cwd path) (components path) = .none := reached
    refine .done (fails name₁ fs₁ frame₁ (fun d c x leads => ?_) here₁)
    rw [nowhere] at leads
    cases leads
  | some dp =>
    have parent : resolveParent node (origin name cwd path) (components path) =
        some (name₁ dp, key nm') := reached
    obtain ⟨x, isNode, isDir⟩ := resolveParent_dir parent
    have live₁ : ∀ m ∈ held, node (name₁ m) ≠ none := fun m member => by
      rw [frame₁ m (Or.inr member)]
      exact live m member
    refine .seq (.atomic ((here₁.ilock (here₁.ref_pos_of_held List.mem_cons_self) List.not_mem_nil
      fun _ => untyped).also here₁.ilock_quiet)) fun _ fs₂ locked => ?_
    obtain ⟨⟨-, here₂⟩, quiet₂⟩ := locked
    cases found : lookup x.bytes (key nm') with
    | none =>
      refine .seq (here₂.dirlookup_absent isNode isDir List.mem_cons_self found) fun r fs₃ same => ?_
      obtain ⟨rfl, rfl⟩ := same
      exact makes dp nm' name₁ x fs₃ frame₁ parent isNode isDir found (quiet₂.trans quiet₁) live₁ here₂
    | some entry =>
      obtain ⟨n, k⟩ := entry
      refine .seq (here₂.dirlookup_found isNode isDir List.mem_cons_self found fun _ => full)
        fun r fs₃ entered => ?_
      obtain ⟨j, name₂, rfl, -, same, here₃⟩ := entered
      have frame₂ : ∀ m, 0 < uses m ∨ m ∈ held → name₂ m = name m := fun m inUse => by
        rw [same m (inUse.elim here₂.ref_pos_of_uses fun member =>
          here₂.ref_pos_of_held (List.mem_cons_of_mem _ member)), frame₁ m inUse]
      refine .seq (here₃.swap.iunlockput_linked List.not_mem_nil) fun _ fs₄ here₄ => ?_
      refine .seq (.atomic (here₄.ilock (here₄.ref_pos_of_held List.mem_cons_self)
        List.not_mem_nil fun _ => untyped)) fun _ fs₅ locked => ?_
      obtain ⟨-, here₅⟩ := locked
      refine .seq_run (a := fs₅.inode j) rfl ?_
      by_cases opens : type = T_FILE ∧ ((fs₅.inode j).type = T_FILE ∨ (fs₅.inode j).type = T_DEVICE)
      · rw [if_pos opens]
        exact .done (finds opens.1 j name₂ fs₅ frame₂ here₅)
      · rw [if_neg opens]
        refine .seq (here₅.iunlockput_linked List.not_mem_nil) fun _ fs₆ after =>
          .done (fails name₂ fs₆ frame₂ (fun d c y leads here absent => ?_) after)
        rw [parent] at leads
        cases leads
        rw [isNode] at here
        cases here
        rw [found] at absent
        cases absent

/-- `create`, for an inode that is no directory. -/
theorem create (here : At sb uses ⟨held, [], []⟩ name node fs)
    (live : ∀ m ∈ held, node (name m) ≠ none) (typed : type ≠ 0) (file : type ≠ T_DIR)
    (root : ROOTINO < sb.ninodes) (width : sb.ninodes ≤ 2 ^ 16) {cwd : Ip} (used : 0 < uses cwd)
    {path : List UInt8} (full : stops .igetNoInodes) (untyped : stops .ilockNoType) :
    Meets (Namespace.create sb cwd path type major minor nm).run fs stops fun r fs' => ∃ name',
      (∀ m, 0 < uses m ∨ m ∈ held → name' m = name m) ∧
      ((r = none ∧ (∀ d c x,
          resolveParent node (origin name cwd path) (components path) = some (d, c) →
          node d = some x → lookup x.bytes c = none → ¬ CanLink sb fs.disk d x.bytes) ∧
        At sb uses ⟨held, [], []⟩ name' node fs') ∨
      (type = T_FILE ∧ ∃ i, r = some i ∧ At sb uses ⟨i :: held, [i], []⟩ name' node fs') ∨
      ∃ i d c x bytes, r = some i ∧
        resolveParent node (origin name cwd path) (components path) = some (d, c) ∧
        node d = some x ∧ lookup x.bytes c = none ∧ CanLink sb fs.disk d x.bytes ∧
        (freeBlocks sb fs'.disk).ncard + (entrySlots sb fs.disk d x.bytes).ncard =
          (freeBlocks sb fs.disk).ncard ∧ node (name' i) = none ∧
        ((fs'.inode i).addrs = fun _ => 0) ∧
        At sb uses ⟨i :: held, [i], []⟩ name' (Function.update
          (Function.update node (name' i) (some ⟨type, major, minor, 1, []⟩)) d
          (some { x with bytes := bytes })) fs') := by
  refine here.create_split live root used full untyped
    (fun name' fs' frame known after => ⟨name', frame, Or.inl ⟨rfl,
      fun d c x leads isNode absent => absurd absent (known d c x leads isNode), after⟩⟩)
    (fun file' i name' fs' frame after => ⟨name', frame, Or.inr (Or.inl ⟨file', i, rfl, after⟩)⟩)
    fun dp nm' name₁ x fs₁ frame₁ parent isNode isDir absent quiet live₁ locked => ?_
  refine (locked.createNew live₁ isNode isDir absent typed file width full).mono fun r fs₂ made => ?_
  rw [quiet] at made
  rcases made with ⟨rfl, cannot, name₂, frame₂, after⟩ |
    ⟨i, name₂, rfl, can, count, empty, free, -, -, frame₂, after⟩
  · refine ⟨name₂, fun m inUse => (frame₂ m inUse).trans (frame₁ m inUse),
      Or.inl ⟨rfl, fun d c y leads isNode' _ => ?_, after⟩⟩
    rw [parent] at leads
    cases leads
    rw [isNode] at isNode'
    cases isNode'
    exact cannot
  · exact ⟨name₂, fun m inUse => (frame₂ m inUse).trans (frame₁ m inUse), Or.inr (Or.inr
      ⟨i, _, _, x, _, rfl, parent, isNode, absent, can, count, free, empty, after⟩)⟩

end At

end Csc3150.Namespace
