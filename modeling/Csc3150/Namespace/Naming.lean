/-
**A name that is made can be looked up.**

* `child_grown` — one directory has one more entry, for an inode that is no directory;
* `foldlM_grown` — every path leads where it led, or to that inode;
* `mknod_then_lookup` — after `sys_mknod` its path leads to the new device;
* `link_then_lookup` — after `sys_link` the new path leads where the old one does.
-/

import Csc3150.Namespace.Composing
import Csc3150.Namespace.Failing

namespace Csc3150.Namespace

open ByteBuffer FileSystem Outcome Program Search
open Program.Script (atomic)

/-! ### Directories with one more entry -/

/-- A new entry is found by its name, and the others as before. -/
theorem lookup_addEntry {bytes : List UInt8} {nm : Name} {n : Nat}
    (whole : bytes.length % direntSize = 0) (absent : lookup bytes (key nm) = none)
    (positive : 0 < n) (fits : n < 2 ^ 16) (c : List UInt8) :
    (lookup (addEntry bytes nm n) c).map Prod.fst =
      if c = key nm then some n else (lookup bytes c).map Prod.fst := by
  have entries : entry (addEntry bytes nm n) = _ := entry_addEntry whole positive fits
  have others := lookup_eq_none.mp absent
  by_cases same : c = key nm
  · subst same
    rw [if_pos rfl]
    have found : lookup (addEntry bytes nm n) (key nm) = some (n, freeSlot bytes) := by
      rw [lookup_eq_some, entries]
      refine ⟨Function.update_self _ _ _, fun j earlier m => ?_⟩
      rw [Function.update_of_ne earlier.ne]
      exact others j m
    rw [found]
    rfl
  · rw [if_neg same]
    have keeps : ∀ k m, entry (addEntry bytes nm n) k = some (c, m) ↔ entry bytes k = some (c, m) := by
      intro k m
      rw [entries]
      by_cases slot : k = freeSlot bytes
      · rw [slot, Function.update_self, entry_freeSlot]
        exact iff_of_false (fun equal => same (congrArg Prod.fst (Option.some.inj equal)).symm)
          (Option.some_ne_none _).symm
      · rw [Function.update_of_ne slot]
    have equal : lookup (addEntry bytes nm n) c = lookup bytes c := by
      refine Option.ext fun found => ?_
      obtain ⟨m, k⟩ := found
      rw [lookup_eq_some, lookup_eq_some, keeps]
      refine and_congr_right fun _ => forall_congr' fun j => forall_congr' fun _ =>
        forall_congr' fun m' => not_congr (keeps j m')
    rw [equal]

section Grown

variable {node : Nat → Option Node} {d n : Nat} {x y : Node} {nm : Name}

/-- Inode `n` becomes `y`, and directory `d` has one more entry for it. -/
def grown (node : Nat → Option Node) (d n : Nat) (x y : Node) (nm : Name) : Nat → Option Node :=
  Function.update (Function.update node n (some y)) d (some { x with bytes := addEntry x.bytes nm n })

/-- An inode that is no directory, and was none, gets a name that was free. -/
structure Grows (node : Nat → Option Node) (d n : Nat) (x y : Node) (nm : Name) : Prop where
  parent : node d = some x
  isDir : x.type = T_DIR
  whole : x.bytes.length % direntSize = 0
  absent : lookup x.bytes (key nm) = none
  apart : n ≠ d
  blank : ∀ c, child node n c = none
  file : y.type ≠ T_DIR
  positive : 0 < n
  fits : n < 2 ^ 16

theorem child_grown (grows : Grows node d n x y nm) (m : Nat) (c : List UInt8) :
    child (grown node d n x y nm) m c = if m = d ∧ c = key nm then some n else child node m c := by
  by_cases atParent : m = d
  · subst atParent
    have isNode : grown node m n x y nm m = some { x with bytes := addEntry x.bytes nm n } :=
      Function.update_self _ _ _
    rw [child_eq isNode grows.isDir, child_eq grows.parent grows.isDir,
      lookup_addEntry grows.whole grows.absent grows.positive grows.fits]
    simp only [true_and]
  · rw [if_neg fun both => atParent both.1]
    by_cases new : m = n
    · subst new
      have isNode : grown node d m x y nm m = some y := by
        rw [grown, Function.update_of_ne atParent, Function.update_self]
      rw [child_of_file isNode grows.file, grows.blank]
    · rw [child, child, grown, Function.update_of_ne atParent, Function.update_of_ne new]

/-- A path that led somewhere leads there still. -/
theorem foldlM_grown_of_some (grows : Grows node d n x y nm) {cs : List (List UInt8)} {m k : Nat}
    (leads : cs.foldlM (child node) m = some k) : cs.foldlM (child (grown node d n x y nm)) m = some k := by
  induction cs generalizing m with
  | nil => exact leads
  | cons c rest ih =>
    obtain ⟨m', isChild, leads⟩ := Option.bind_eq_some_iff.mp leads
    refine Option.bind_eq_some_iff.mpr ⟨m', ?_, ih leads⟩
    rw [child_grown grows, if_neg, isChild]
    rintro ⟨rfl, rfl⟩
    rw [child_eq grows.parent grows.isDir, grows.absent] at isChild
    cases isChild

/-- A path that leads somewhere leads to the named inode, or led there. -/
theorem foldlM_of_grown (grows : Grows node d n x y nm) {cs : List (List UInt8)} {m k : Nat}
    (leads : cs.foldlM (child (grown node d n x y nm)) m = some k) :
    cs.foldlM (child node) m = some k ∨ k = n := by
  induction cs generalizing m with
  | nil => exact Or.inl leads
  | cons c rest ih =>
    obtain ⟨m', isChild, leads⟩ := Option.bind_eq_some_iff.mp leads
    rw [child_grown grows] at isChild
    split_ifs at isChild with here
    · cases isChild
      -- the inode is no directory, so the path ends there
      cases rest with
      | nil =>
        cases leads
        exact Or.inr rfl
      | cons c' rest =>
        obtain ⟨m'', isChild, -⟩ := Option.bind_eq_some_iff.mp leads
        rw [child_grown grows, if_neg fun both => grows.apart both.1, grows.blank] at isChild
        cases isChild
    · rcases ih leads with led | new
      · exact Or.inl (Option.bind_eq_some_iff.mpr ⟨m', isChild, led⟩)
      · exact Or.inr new

/-- A path leads where it led, or to the named inode. -/
theorem foldlM_grown (grows : Grows node d n x y nm) (cs : List (List UInt8)) (m : Nat) :
    cs.foldlM (child (grown node d n x y nm)) m = cs.foldlM (child node) m ∨
      cs.foldlM (child node) m = none ∧ cs.foldlM (child (grown node d n x y nm)) m = some n := by
  cases led : cs.foldlM (child node) m with
  | some k => exact Or.inl (foldlM_grown_of_some grows led)
  | none =>
    cases leads : cs.foldlM (child (grown node d n x y nm)) m with
    | none => exact Or.inl rfl
    | some k =>
      rcases foldlM_of_grown grows leads with before | rfl
      · rw [led] at before
        cases before
      · exact Or.inr ⟨rfl, rfl⟩

/-- The path of the name leads to the inode. -/
theorem foldlM_grown_new (grows : Grows node d n x y nm) {cs : List (List UInt8)} {m : Nat}
    (parent : resolveParent node m cs = some (d, key nm)) :
    cs.foldlM (child (grown node d n x y nm)) m = some n := by
  obtain ⟨last, leads, -⟩ := (resolveParent_eq_some node).mp parent
  rw [← List.dropLast_append_getLast? (key nm) last, List.foldlM_append]
  refine Option.bind_eq_some_iff.mpr ⟨d, foldlM_grown_of_some grows leads, ?_⟩
  refine Option.bind_eq_some_iff.mpr ⟨n, ?_, rfl⟩
  rw [child_grown grows, if_pos ⟨rfl, rfl⟩]

theorem grown_ne_none {m : Nat} (isNode : node m ≠ none) : grown node d n x y nm m ≠ none := by
  rw [grown]
  by_cases atParent : m = d
  · rw [atParent, Function.update_self]
    exact Option.some_ne_none _
  · rw [Function.update_of_ne atParent]
    by_cases new : m = n
    · rw [new, Function.update_self]
      exact Option.some_ne_none _
    · rwa [Function.update_of_ne new]

theorem grown_new (grows : Grows node d n x y nm) : grown node d n x y nm n = some y := by
  rw [grown, Function.update_of_ne grows.apart, Function.update_self]

/-- No count of links is negative. -/
theorem grown_counts (grows : Grows node d n x y nm) (counts : ∀ m z, node m = some z → 0 ≤ z.nlink)
    (count : 0 ≤ y.nlink) {m : Nat} {z : Node} (isNode : grown node d n x y nm m = some z) :
    0 ≤ z.nlink := by
  by_cases atParent : m = d
  · rw [grown, atParent, Function.update_self] at isNode
    cases isNode
    exact counts d x grows.parent
  · by_cases new : m = n
    · rw [new, grown_new grows] at isNode
      cases isNode
      exact count
    · rw [grown, Function.update_of_ne atParent, Function.update_of_ne new] at isNode
      exact counts m z isNode

/-- The entries stand for allocated inodes again. -/
theorem entered_grown (grows : Grows node d n x y nm) (before : ∀ m, Entered node m → node m ≠ none)
    {m : Nat} (entered : Entered (grown node d n x y nm) m) : grown node d n x y nm m ≠ none := by
  obtain ⟨d', x', k, c, isNode, isDir, isEntry⟩ := entered
  by_cases atParent : d' = d
  · subst atParent
    rw [grown, Function.update_self] at isNode
    cases isNode
    rw [entry_addEntry grows.whole grows.positive grows.fits] at isEntry
    by_cases slot : k = freeSlot x.bytes
    · rw [slot, Function.update_self] at isEntry
      cases isEntry
      rw [grown_new grows]
      exact Option.some_ne_none y
    · rw [Function.update_of_ne slot] at isEntry
      exact grown_ne_none (before m ⟨d', x, k, c, grows.parent, grows.isDir, isEntry⟩)
  · by_cases new : d' = n
    · rw [new, grown_new grows] at isNode
      cases isNode
      exact absurd isDir grows.file
    · rw [grown, Function.update_of_ne atParent, Function.update_of_ne new] at isNode
      exact grown_ne_none (before m ⟨d', x', k, c, isNode, isDir, isEntry⟩)

end Grown

/-! ### A new name -/

/-- What a path leads to from a current directory in use, before and after a call: the same, or, when it
led nowhere, nowhere or to inode `n`. -/
def KeepsPaths (sb : Superblock) (uses : Ip → Int) (n : Nat) (fs fs' : Fs) : Prop :=
  ∀ cwd q nm, 0 < uses cwd →
    Meets (namei sb cwd q nm).run fs (TableFull fs) fun r₁ fs₁ =>
    Meets (namei sb cwd q nm).run fs' (TableFull fs') fun r₂ fs₂ =>
      r₂.map (fun i => (fs₂.inode i).inum) = r₁.map (fun i => (fs₁.inode i).inum) ∨
      r₁ = none ∧ r₂.map (fun i => (fs₂.inode i).inum) = some n

/-- The file system after a call that has made a name: the directory that the path names has one more
entry, for inode `n`. -/
structure Named (sb : Superblock) (uses : Ip → Int) (name : Ip → Nat) (node : Nat → Option Node) (cwd : Ip)
    (path : List UInt8) (n : Nat) (y : Node) (fs' : Fs) (d : Nat) (x : Node) (nm : Name)
    (name' : Ip → Nat) : Prop where
  grows : Grows node d n x y nm
  parent : resolveParent node (At.origin name cwd path) (components path) = some (d, key nm)
  frame : ∀ m, 0 < uses m → name' m = name m
  idle : At sb uses ⟨[], [], []⟩ name' (grown node d n x y nm) fs'

section Named

variable {sb : Superblock} {uses : Ip → Int} {name name' : Ip → Nat} {node : Nat → Option Node}
  {fs fs' : Fs} {cwd : Ip} {path : List UInt8} {d n : Nat} {x y : Node} {nm nm' : Name}

theorem Named.wellFormed (named : Named sb uses name node cwd path n y fs' d x nm name')
    (formed : WellFormed sb uses name node fs) :
    WellFormed sb uses name' (grown node d n x y nm) fs' :=
  ⟨named.idle, formed.inside, grown_ne_none formed.root, fun _ =>
    entered_grown named.grows formed.entered⟩

theorem Named.origin (named : Named sb uses name node cwd path n y fs' d x nm name') {cwd' : Ip}
    (used : 0 < uses cwd') (q : List UInt8) : At.origin name' cwd' q = At.origin name cwd' q := by
  rw [At.origin, At.origin, named.frame cwd' used]

theorem Named.shows (named : Named sb uses name node cwd path n y fs' d x nm name') :
    nodeAt sb fs'.disk n = some y := by
  rw [named.idle.nodes, grown_new named.grows]

/-- The path leads to the inode. -/
theorem Named.leads (named : Named sb uses name node cwd path n y fs' d x nm name')
    (formed : WellFormed sb uses name node fs) (used : 0 < uses cwd) :
    Meets (namei sb cwd path nm').run fs' (TableFull fs') fun r fs₁ =>
      r.map (fun i => (fs₁.inode i).inum) = some n := by
  refine (path_lookup_folds (named.wellFormed formed) used).1.mono fun r fs₁ walked => ?_
  rw [walked.1, named.origin used]
  exact foldlM_grown_new named.grows named.parent

theorem Named.keepsPaths (named : Named sb uses name node cwd path n y fs' d x nm name')
    (formed : WellFormed sb uses name node fs) : KeepsPaths sb uses n fs fs' := by
  intro cwd' q nm' used
  refine (path_lookup_folds formed used).1.mono fun r₁ fs₁ walked₁ => ?_
  refine (path_lookup_folds (named.wellFormed formed) used).1.mono fun r₂ fs₂ walked₂ => ?_
  rw [walked₂.1, walked₁.1, named.origin used]
  refine (foldlM_grown named.grows _ _).imp_right fun new => ⟨?_, new.2⟩
  exact Option.map_eq_none_iff.mp (walked₁.1.trans new.1)

end Named

section Calls

variable {sb : Superblock} {uses : Ip → Int} {name : Ip → Nat} {node : Nat → Option Node} {k : Kernel}
  {p : Pid} {nm : Name}

/-! ### A new inode with a name -/

/-- `create` of an inode that is neither a directory nor a file. -/
theorem create_names {fs : Fs} {cwd : Ip} {path : List UInt8} {type major minor : Int16}
    (formed : WellFormed sb uses name node fs) (width : sb.ninodes ≤ 2 ^ 16) (used : 0 < uses cwd)
    (typed : type ≠ 0) (notDir : type ≠ T_DIR) (notFile : type ≠ T_FILE) :
    Meets (create sb cwd path type major minor nm).run fs (fun _ => True) fun r fs' =>
      ∀ i, r = some i → ∃ d n x nm' name', node n = none ∧ name' i = n ∧
        Grows node d n x ⟨type, major, minor, 1, []⟩ nm' ∧
        resolveParent node (At.origin name cwd path) (components path) = some (d, key nm') ∧
        (∀ m, 0 < uses m → name' m = name m) ∧ ((fs'.inode i).addrs = fun _ => 0) ∧
        At sb uses ⟨[i], [i], []⟩ name' (grown node d n x ⟨type, major, minor, 1, []⟩ nm') fs' := by
  have live : ∀ m ∈ ([] : List Ip), node (name m) ≠ none := fun _ member => absurd member List.not_mem_nil
  refine formed.idle.create_split live formed.inside used trivial trivial
    (fun _ _ _ _ _ i none => by cases none) (fun isFile => absurd isFile notFile)
    fun dp nm' name₁ x fs₁ frame₁ parent isNode isDir absent _ live₁ locked => ?_
  refine (locked.createNew live₁ isNode isDir absent typed notDir width trivial).mono
    fun r fs₂ made i isMade => ?_
  rcases made with ⟨rfl, -⟩ | ⟨j, name₂, rfl, -, -, empty, free, -, -, frame₂, after⟩
  · cases isMade
  · cases isMade
    have range := after.name_range (after.ref_pos_of_held List.mem_cons_self)
    have apart : name₂ i ≠ name₁ dp := fun same => by
      rw [same, isNode] at free
      cases free
    have blank : ∀ c, child node (name₂ i) c = none := fun c => by rw [child, free, Option.bind_none]
    exact ⟨name₁ dp, name₂ i, x, nm', name₂, free, rfl,
      ⟨isNode, isDir, ((locked.ok isNode).dir isDir).whole, absent, apart, blank, notDir, range.1,
        range.2.trans_le width⟩,
      parent, fun m inUse => (frame₂ m (Or.inl inUse)).trans (frame₁ m (Or.inl inUse)), empty, after⟩

/-! ### `sys_mknod` -/

section Mknod

variable {major minor : Int16} {path : List UInt8}

theorem sys_mknod_names (formed : WellFormed sb uses name node k.fs) (width : sb.ninodes ≤ 2 ^ 16)
    (used : 0 < uses (k.proc p).cwd) (locals : Locals) :
    Meets (sys_mknod sb p locals major minor (some path)).run k (fun _ => True) fun r k' =>
      r = 0 → k'.proc = k.proc ∧ ∃ d n x nm name', node n = none ∧
        Named sb uses name node (k.proc p).cwd path n ⟨T_DEVICE, major, minor, 1, []⟩ k'.fs d x nm
          name' := by
  refine during_begin (during_cwd (during_seq (create_names formed width used (by decide) (by decide)
    (by decide)) fun r fs₁ made => ?_))
  cases r with
  | none => exact .seq_run rfl (.done fun zero => absurd zero (by decide))
  | some i =>
    obtain ⟨d, n, x, nm, name', free, -, grows, parent, frame, -, locked⟩ := made i rfl
    exact during_seq (locked.iunlockput_linked List.not_mem_nil) fun _ fs₂ after =>
      .seq_run rfl (.done fun _ => ⟨rfl, d, n, x, nm, name', free, grows, parent, frame, after⟩)

/-- **A device that is made can be looked up.** After a `sys_mknod` that succeeds, `namei` of its path leads
to an inode that was free and is the device now, with one link. Every other path, from every current
directory in use, leads where it led before the call; only a path that led nowhere may lead to the new
device. -/
theorem mknod_then_lookup (formed : WellFormed sb uses name node k.fs) (width : sb.ninodes ≤ 2 ^ 16)
    (used : 0 < uses (k.proc p).cwd) {locals : Locals} {k' : Kernel}
    (made : (sys_mknod sb p locals major minor (some path)).run k = .ok (0, k')) :
    ∃ n, nodeAt sb k.fs.disk n = none ∧ nodeAt sb k'.fs.disk n = some ⟨T_DEVICE, major, minor, 1, []⟩ ∧
      (Meets (namei sb (k'.proc p).cwd path nm).run k'.fs (TableFull k'.fs) fun r fs₁ =>
        r.map (fun i => (fs₁.inode i).inum) = some n) ∧
      KeepsPaths sb uses n k.fs k'.fs := by
  obtain ⟨sameProc, d, n, x, nm', name', free, named⟩ :=
    (sys_mknod_names formed width used locals).ends _ _ made rfl
  refine ⟨n, (formed.idle.nodes n).trans free, named.shows, ?_, named.keepsPaths formed⟩
  rw [sameProc]
  exact named.leads formed used

end Mknod

/-- The device "a" on the small image. -/
theorem mknod_then_lookup_small : ∃ k' n, (sys_mknod rootSuperblock ⟨0, by decide⟩ ⟨fun _ => 0, []⟩ 1 2
      (some [97])).run rootKernel = .ok (0, k') ∧
    nodeAt rootSuperblock rootKernel.fs.disk n = none ∧
    nodeAt rootSuperblock k'.fs.disk n = some ⟨T_DEVICE, 1, 2, 1, []⟩ ∧
    Meets (namei rootSuperblock (k'.proc ⟨0, by decide⟩).cwd [97] dot).run k'.fs (TableFull k'.fs)
      fun r fs' => r.map (fun i => (fs'.inode i).inum) = some n := by
  have evaluated : ((sys_mknod rootSuperblock ⟨0, by decide⟩ ⟨fun _ => 0, []⟩ 1 2 (some [97])).run
      rootKernel).toOption.any (fun result => decide (result.1 = 0)) = true := by
    decide +kernel
  obtain ⟨r, k', run, isZero⟩ := exists_of_any evaluated
  obtain rfl := of_decide_eq_true isZero
  obtain ⟨n, free, isDevice, leads, -⟩ := @mknod_then_lookup _ _ _ _ _ _ dot _ _ _
    rootKernel_wellFormed (by decide) (by decide) _ _ run
  exact ⟨k', n, run, free, isDevice, leads⟩

/-! ### `sys_link` -/

/-- One more link changes no lookup. -/
theorem child_linked {n : Nat} {y y' : Node} (isNode : node n = some y) (file : y.type ≠ T_DIR)
    (same : y'.type = y.type) : child (Function.update node n (some y')) = child node := by
  refine funext fun m => funext fun c => ?_
  by_cases new : m = n
  · subst new
    rw [child_of_file (Function.update_self _ _ _) (same ▸ file), child_of_file isNode file]
  · rw [child, child, Function.update_of_ne new]

/-- One more link changes no walk to a directory. -/
theorem resolveParent_linked {n m d : Nat} {y y' : Node} {cs : List (List UInt8)} {c : List UInt8}
    (isNode : node n = some y) (file : y.type ≠ T_DIR) (same : y'.type = y.type) (apart : n ≠ d)
    (leads : resolveParent (Function.update node n (some y')) m cs = some (d, c)) :
    resolveParent node m cs = some (d, c) := by
  rw [resolveParent_eq_some, child_linked isNode file same] at leads
  obtain ⟨last, leads, x, isParent, isDir⟩ := leads
  rw [Function.update_of_ne apart.symm] at isParent
  exact (resolveParent_eq_some node).mpr ⟨last, leads, x, isParent, isDir⟩

section Link

variable {old new : List UInt8}

/-- A `sys_link` that succeeds has made a name. -/
theorem Linked.named {cwd : Ip} {fs' : Fs} {d n : Nat} {x y : Node} {name' : Ip → Nat}
    (linked : Linked sb uses name node cwd old new fs' d n x y nm name')
    (whole : x.bytes.length % direntSize = 0) (width : sb.ninodes ≤ 2 ^ 16) :
    Named sb uses name node cwd new n { y with nlink := y.nlink + 1 } fs' d x nm name' := by
  have type : ({ y with nlink := y.nlink + 1 } : Node).type = y.type := rfl
  refine ⟨?_, resolveParent_linked linked.isNode linked.file type linked.apart linked.parent,
    linked.frame, linked.idle⟩
  exact ⟨linked.isParent, linked.isDir, whole, linked.absent, linked.apart,
    child_of_file linked.isNode linked.file, linked.file, linked.positive, linked.inside.trans_le width⟩

end Link

end Calls

end Csc3150.Namespace
