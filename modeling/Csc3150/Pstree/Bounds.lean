/-
**The three tables.**

`process_tree`, the `children` of a node and `branch_bar_recorder` are arrays of fixed size, and no
index into them is checked.

* `table`, `treeOf` — what would be read and built if the arrays had no end;
* `read_all_iff`, `build_iff` — the limits that reading and building need;
* `Stands`, `accesses_iff` — the columns that printing uses;
* `in_bounds_iff` — when every access is inside its array.
-/

import Csc3150.Pstree.Entries
import Csc3150.Pstree.Stat

namespace Csc3150.Pstree

open Outcome

/-! ### Tables without end -/

section Tables

variable (opts : Options) (junk : NodeRef → Text)
  (qsort : (NodeRef → NodeRef → Int) → List NodeRef → List NodeRef)

/-- The threads that are read. -/
def threadsOf (proc : Proc) : List (Int × Text) := if opts.show_threads then proc.threads else []

/-- The nodes of one more process. -/
def load (heap : Heap) (proc : Proc) : Heap
  | .process pid =>
    if pid = proc.pid then
      some { pid := pid, ppid := proc.ppid
             name := snprintf (MAX_NAME_LEN + 2) (clean_process_name proc.name)
             cmdline := if opts.show_cmdline then read_process_cmdline proc.cmdline else []
             children := (List.range (threadsOf opts proc).length).map (.thread pid) }
    else heap (.process pid)
  | .thread pid index =>
    if pid = proc.pid then
      (threadsOf opts proc)[index]?.elim (heap (.thread pid index)) fun thread =>
        some (threadNode opts junk pid index (clean_process_name proc.name) thread)
    else heap (.thread pid index)

/-- The nodes of all processes. -/
def table (procs : List Proc) : Heap := procs.foldl (load opts junk) fun _ => none

/-- The processes below their parents, in order. -/
def treeOf (heap : Heap) : Heap
  | .process p => (attached heap MAX_PROCESSES (.process p)).map fun node => { node with
      children := if 1 < node.children.length then
        qsort (compareAt (attached heap MAX_PROCESSES) (ordering opts)) node.children
        else node.children }
  | .thread p i => heap (.thread p i)

end Tables

/-! ### Reading -/

section Reading

variable {opts : Options} {junk : NodeRef → Text} {procs : List Proc}

/-- A process can be read: its number is inside `process_tree`, and its threads inside `children`. -/
def Loadable (opts : Options) (proc : Proc) : Prop :=
  proc.pid < MAX_PROCESSES ∧ (threadsOf opts proc).length ≤ MAX_CHILDREN

instance (opts : Options) (proc : Proc) : Decidable (Loadable opts proc) :=
  inferInstanceAs (Decidable (_ ∧ _))

theorem read_process_info_eq (heap : Heap) (proc : Proc) :
    read_process_info opts junk heap proc =
      if MAX_PROCESSES ≤ proc.pid then .error .process_tree
      else if MAX_CHILDREN < (threadsOf opts proc).length then .error .children
      else .ok (load opts junk heap proc) := by
  unfold read_process_info
  dsimp only
  rw [threadsOf]
  by_cases outside : MAX_PROCESSES ≤ proc.pid
  · rw [if_pos outside, if_pos outside]
  · rw [if_neg outside, if_neg outside]
    refine if_congr Iff.rfl rfl (congrArg Except.ok (funext fun r => ?_))
    cases r <;> rfl

theorem read_process_info_iff {heap after : Heap} {proc : Proc} :
    read_process_info opts junk heap proc = .ok after ↔
      Loadable opts proc ∧ after = load opts junk heap proc := by
  rw [read_process_info_eq, Loadable]
  by_cases outside : MAX_PROCESSES ≤ proc.pid
  · rw [if_pos outside]
    exact iff_of_false (fun impossible => by cases impossible)
      fun both => Nat.not_lt.mpr outside both.1.1
  · rw [if_neg outside]
    by_cases many : MAX_CHILDREN < (threadsOf opts proc).length
    · rw [if_pos many]
      exact iff_of_false (fun impossible => by cases impossible)
        fun both => Nat.not_le.mpr many both.1.2
    · rw [if_neg many, Except.ok.injEq,
        and_iff_right ⟨Nat.not_le.mp outside, Nat.not_lt.mp many⟩, eq_comm]

/-- Reading stays inside the tables exactly when every process can be read. -/
theorem read_all_iff {heap : Heap} : read_all_processes opts junk procs = .ok heap ↔
    (∀ proc ∈ procs, Loadable opts proc) ∧ heap = table opts junk procs := by
  have loop : ∀ (procs : List Proc) (start : Heap),
      procs.foldlM (read_process_info opts junk) start = .ok heap ↔
        (∀ proc ∈ procs, Loadable opts proc) ∧ heap = procs.foldl (load opts junk) start := by
    intro procs
    induction procs with
    | nil =>
      intro start
      rw [List.foldl_nil, and_iff_right fun proc member => absurd member List.not_mem_nil]
      exact ⟨fun done => (Except.ok.inj done).symm, fun same => by rw [same]; rfl⟩
    | cons proc procs ih =>
      intro start
      rw [List.foldlM_cons, bind_eq_ok, List.foldl_cons, List.forall_mem_cons, and_assoc]
      constructor
      · rintro ⟨middle, first, rest⟩
        obtain ⟨loadable, rfl⟩ := read_process_info_iff.mp first
        exact ⟨loadable, (ih _).mp rest⟩
      · rintro ⟨loadable, rest⟩
        exact ⟨_, read_process_info_iff.mpr ⟨loadable, rfl⟩, (ih _).mpr rest⟩
  exact loop procs _

/-- The children of a process that was read are its threads. -/
theorem table_children (loadable : ∀ proc ∈ procs, Loadable opts proc) {p : Nat} {node : ProcessNode}
    (isNode : table opts junk procs (.process p) = some node) :
    node.children.length ≤ MAX_CHILDREN := by
  have loop : ∀ (procs : List Proc) (start : Heap), (∀ proc ∈ procs, Loadable opts proc) →
      (∀ {p node}, start (.process p) = some node → node.children.length ≤ MAX_CHILDREN) →
      ∀ {p node}, procs.foldl (load opts junk) start (.process p) = some node →
        node.children.length ≤ MAX_CHILDREN := by
    intro procs
    induction procs with
    | nil => exact fun _ _ few => few
    | cons proc procs ih =>
      intro start loadable few
      refine ih _ (fun proc member => loadable proc (.tail _ member)) fun {p node} isNode => ?_
      rw [load] at isNode
      by_cases here : p = proc.pid
      · rw [if_pos here] at isNode
        cases isNode
        rw [List.length_map, List.length_range]
        exact (loadable proc List.mem_cons_self).2
      · rw [if_neg here] at isNode
        exact few isNode
  refine loop procs _ loadable (fun impossible => ?_) isNode
  cases impossible

end Reading

/-! ### Building -/

section Building

variable {opts : Options} {qsort : (NodeRef → NodeRef → Int) → List NodeRef → List NodeRef}
  {heap tree : Heap}

/-- The tree that is built. -/
theorem build_treeOf (permutes : ∀ compare l, (qsort compare l).Perm l) (fresh : Fresh heap)
    (built : build_process_tree qsort opts heap = .ok tree) : tree = treeOf opts qsort heap := by
  obtain ⟨same, -⟩ := build_linked permutes fresh built
  funext r
  cases r with
  | thread p i =>
    rcases same (.thread p i) with ⟨absent, absent'⟩ | ⟨node, children, here, here', perm⟩
    · exact absent'.trans absent.symm
    · have childless : node.children = [] := List.eq_nil_iff_forall_not_mem.mpr fun x member =>
        fresh.leaf ⟨node, here, member⟩
      rw [childless] at perm
      rw [here', treeOf, show heap (.thread p i) = some node from here, perm.eq_nil, ← childless]
  | process p =>
    cases isNode : attached heap MAX_PROCESSES (.process p) with
    | none =>
      rcases same (.process p) with ⟨-, absent'⟩ | ⟨node, children, here, -, -⟩
      · rw [absent', treeOf, isNode]
        rfl
      · rw [isNode] at here
        cases here
    | some node =>
      have inside : p < MAX_PROCESSES := fresh.inside
        (attached_ne_none.mp (by rw [isNode]; exact Option.some_ne_none _))
      rw [build_children permutes inside isNode built, treeOf, isNode]
      rfl

/-- A round inside the tables. -/
theorem attach_ok_iff {n : Nat} : (∃ after, attach (attached heap n) n = .ok after) ↔
    ∀ node, heap (.process n) = some node → 0 < node.ppid → node.ppid.toNat < MAX_PROCESSES ∧
      ∀ parent, attached heap n (.process node.ppid.toNat) = some parent →
        parent.children.length < MAX_CHILDREN := by
  rw [attach]
  cases isNode : heap (.process n) with
  | none =>
    rw [show attached heap n (.process n) = none by rw [attached, isNode]; rfl]
    exact iff_of_true ⟨_, rfl⟩ fun node impossible => by cases impossible
  | some node =>
    rw [show attached heap n (.process n) = _ from congrArg (Option.map _) isNode]
    dsimp only [Option.map_some]
    by_cases positive : 0 < node.ppid
    · rw [if_pos positive]
      by_cases outside : MAX_PROCESSES ≤ node.ppid.toNat
      · rw [if_pos outside]
        refine iff_of_false (fun impossible => ?_)
          fun all => Nat.not_lt.mpr outside (all node rfl positive).1
        obtain ⟨after, impossible⟩ := impossible
        cases impossible
      · rw [if_neg outside]
        cases isParent : attached heap n (.process node.ppid.toNat) with
        | none =>
          refine iff_of_true ⟨_, rfl⟩ fun node' same _ => ?_
          cases same
          refine ⟨Nat.not_le.mp outside, fun parent impossible => ?_⟩
          rw [isParent] at impossible
          cases impossible
        | some parent =>
          dsimp only
          by_cases many : MAX_CHILDREN ≤ parent.children.length
          · rw [if_pos many]
            refine iff_of_false (fun impossible => ?_)
              fun all => Nat.not_lt.mpr many ((all node rfl positive).2 parent isParent)
            obtain ⟨after, impossible⟩ := impossible
            cases impossible
          · rw [if_neg many]
            refine iff_of_true ⟨_, rfl⟩ fun node' same _ => ?_
            cases same
            refine ⟨Nat.not_le.mp outside, fun parent' same => ?_⟩
            rw [isParent] at same
            cases same
            exact Nat.not_le.mp many
    · rw [if_neg positive]
      refine iff_of_true ⟨_, rfl⟩ fun node' same positive' => ?_
      cases same
      exact absurd positive' positive

/-- The parents are inside `process_tree`, and the threads and the children of a process inside its
`children`. -/
structure Bounded (heap : Heap) : Prop where
  parents : ∀ {i node}, heap (.process i) = some node → node.ppid < MAX_PROCESSES
  children : ∀ {p node}, heap (.process p) = some node →
    node.children.length + (List.range MAX_PROCESSES).countP (childOf heap p) ≤ MAX_CHILDREN

/-- The children of a process after all rounds. -/
theorem attached_length {p : Nat} {node : ProcessNode} (isNode : heap (.process p) = some node) :
    attached heap MAX_PROCESSES (.process p) = some { node with
      children := node.children ++
        ((List.range MAX_PROCESSES).filter (childOf heap p)).map .process } ∧
    (node.children ++ ((List.range MAX_PROCESSES).filter (childOf heap p)).map NodeRef.process).length =
      node.children.length + (List.range MAX_PROCESSES).countP (childOf heap p) := by
  refine ⟨congrArg (Option.map _) isNode, ?_⟩
  rw [List.length_append, List.length_map, ← List.countP_eq_length_filter]

/-- The rounds before a fault. -/
theorem attach_loop_bounded (few : ∀ {p node}, heap (.process p) = some node →
      node.children.length ≤ MAX_CHILDREN) {n : Nat} {after : Heap}
    (run : (List.range n).foldlM attach heap = .ok after) :
    (∀ i node, i < n → heap (.process i) = some node → 0 < node.ppid →
      node.ppid.toNat < MAX_PROCESSES) ∧
    ∀ {p node}, attached heap n (.process p) = some node → node.children.length ≤ MAX_CHILDREN := by
  induction n generalizing after with
  | zero =>
    refine ⟨fun i node impossible => absurd impossible (Nat.not_lt_zero i), fun {p node} isNode => ?_⟩
    rw [attached_zero] at isNode
    exact few isNode
  | succ n ih =>
    rw [List.range_succ, List.foldlM_append] at run
    obtain ⟨middle, before, last⟩ := bind_eq_ok.mp run
    obtain ⟨parents, short⟩ := ih before
    rw [attach_loop n before] at last
    obtain ⟨after', step, -⟩ := bind_eq_ok.mp last
    have round := attach_ok_iff.mp ⟨after', step⟩
    refine ⟨fun i node below isNode positive => ?_, fun {p node} isNode => ?_⟩
    · rcases Nat.lt_succ_iff_lt_or_eq.mp below with earlier | rfl
      · exact parents i node earlier isNode positive
      · exact (round node isNode positive).1
    · rw [attached_succ] at isNode
      split_ifs at isNode with child
      · obtain ⟨parent, isParent, rfl⟩ := Option.map_eq_some_iff.mp isNode
        cases isChild : heap (.process n) with
        | none =>
          rw [childOf, isChild] at child
          cases child
        | some node' =>
          rw [childOf, isChild, Option.elim_some, Bool.and_eq_true, decide_eq_true_iff,
            decide_eq_true_iff] at child
          have room := (round node' isChild child.1).2
          rw [child.2] at room
          have less := room parent isParent
          rw [List.length_append, List.length_singleton]
          exact less
      · exact short isNode

/-- Building stays inside the tables exactly when they are large enough. -/
theorem build_iff (permutes : ∀ compare l, (qsort compare l).Perm l) (fresh : Fresh heap)
    (few : ∀ {p node}, heap (.process p) = some node → node.children.length ≤ MAX_CHILDREN) :
    build_process_tree qsort opts heap = .ok tree ↔ Bounded heap ∧ tree = treeOf opts qsort heap := by
  constructor
  · intro built
    have run := built
    rw [build_process_tree] at run
    obtain ⟨middle, loop, -⟩ := bind_eq_ok.mp run
    obtain ⟨parents, short⟩ := attach_loop_bounded few loop
    refine ⟨⟨fun {i node} isNode => ?_, fun {p node} isNode => ?_⟩, build_treeOf permutes fresh built⟩
    · by_cases positive : 0 < node.ppid
      · have inside := parents i node (fresh.inside (by rw [isNode]; exact Option.some_ne_none _))
          isNode positive
        omega
      · have limit : (0 : Int) < MAX_PROCESSES := by decide
        omega
    · obtain ⟨here, length⟩ := attached_length isNode
      rw [← length]
      exact short here
  · rintro ⟨bounded, rfl⟩
    have parents : ∀ {i node}, heap (.process i) = some node → 0 < node.ppid →
        node.ppid.toNat < MAX_PROCESSES := by
      intro i node isNode positive
      have below := bounded.parents isNode
      omega
    have short : ∀ {p node}, attached heap MAX_PROCESSES (.process p) = some node →
        node.children.length ≤ MAX_CHILDREN := by
      intro p node isNode
      obtain ⟨old, here, rfl⟩ := Option.map_eq_some_iff.mp isNode
      dsimp only
      rw [(attached_length here).2]
      exact bounded.children here
    obtain ⟨tree, built⟩ : ∃ tree, build_process_tree qsort opts heap = .ok tree :=
      ⟨_, build_ok parents short⟩
    rw [built, build_treeOf permutes fresh built]

end Building

/-! ### Printing -/

/-- The text of a node. -/
def label (opts : Options) (node : ProcessNode) : Text :=
  if opts.show_pid then shownName node ++ [40] ++ decimal node.pid ++ [41] else shownName node

/-- A node is printed with its bar in this column: process 1 in column 0, its children behind its text,
the children of other nodes behind their text and three more. -/
inductive Stands (opts : Options) (tree : Heap) : NodeRef → ProcessNode → Nat → Prop where
  | root {init : ProcessNode} (present : tree initRef = some init) : Stands opts tree initRef init 0
  | child {r : NodeRef} {node : ProcessNode} {column : Nat} {es : List Entry} {e : Entry}
      (above : Stands opts tree r node column) (isEntries : entries opts tree node = some es)
      (member : e ∈ es) :
      Stands opts tree e.child e.node
        (column + (if column = 0 then 1 else 3) + (label opts node).length)

/-- `int branch_bar_recorder[1000]` -/
abbrev recorderSize : Int := 1000

/-- The indices into `branch_bar_recorder`: the flag of the node that is stored, the columns in front of
the node when a line starts anew, and those of the children. -/
def accesses (opts : Options) (heap : Heap) :
    Nat → NodeRef → ProcessNode → Int → Bool → Bool → List Int
  | 0, _, _, _, _, _ => []
  | fuel + 1, r, node, depth, last, first =>
    let offset := (printNode opts (fun _ => false) r node depth last first).2
    (if opts.align_mode then depth + 1 else depth) ::
      ((if opts.align_mode && first then [] else (List.range depth.toNat).map Int.ofNat) ++
        ((entries opts heap node).getD []).flatMap fun e =>
          accesses opts heap fuel e.child e.node (depth + offset) e.last e.first)

/-- Every access to the three tables is inside. -/
def InBounds (opts : Options) (junk : NodeRef → Text)
    (qsort : (NodeRef → NodeRef → Int) → List NodeRef → List NodeRef) (procs : List Proc) : Prop :=
  ∃ heap tree, read_all_processes opts junk procs = .ok heap ∧
    build_process_tree qsort opts heap = .ok tree ∧ ∀ init, tree initRef = some init →
      ∀ fuel, ∀ k ∈ accesses opts tree fuel initRef init (-1) true true, 0 ≤ k ∧ k < recorderSize

section Printing

variable {opts : Options} {tree : Heap}

/-- Two runs that started on screens with the same lines: they print the same, and what the recorders
agreed on they still agree on; outside of these indices nothing is stored. -/
def Agree (indices : List Int) (s s' : Screen) (run run' : Option Screen) : Prop :=
  ∀ after, run = some after → ∃ after', run' = some after' ∧ after'.lines = after.lines ∧
    (∀ k, s.branch_bar_recorder k = s'.branch_bar_recorder k →
      after.branch_bar_recorder k = after'.branch_bar_recorder k) ∧
    ∀ k, k ∉ indices → after.branch_bar_recorder k = s.branch_bar_recorder k

/-- The line of a node depends on the recorder in the columns that are read. -/
theorem printNode_reads {recorder recorder' : Int → Bool} {r : NodeRef} {node : ProcessNode}
    {depth : Int} {last first : Bool}
    (same : ∀ k ∈ (if opts.align_mode && first then [] else (List.range depth.toNat).map Int.ofNat),
      recorder k = recorder' k) :
    printNode opts recorder r node depth last first =
      printNode opts recorder' r node depth last first := by
  rw [printNode, printNode]
  by_cases inLine : (opts.align_mode && first) = true
  · rw [inLine]
    rfl
  · rw [if_neg inLine] at same
    have bars : (List.range depth.toNat).map (fun (i : Nat) => print_bar opts (recorder i)) =
        (List.range depth.toNat).map fun (i : Nat) => print_bar opts (recorder' i) :=
      List.map_congr_left fun i member => congrArg _ (same i (List.mem_map_of_mem member))
    rw [bars]

/-- **The listed indices are the ones that are used**: the output depends on the recorder there alone,
and nothing is stored elsewhere. -/
theorem print_agree (fuel : Nat) : ∀ r node depth last first s s', s.lines = s'.lines →
    (∀ k ∈ accesses opts tree fuel r node depth last first,
      s.branch_bar_recorder k = s'.branch_bar_recorder k) →
    Agree (accesses opts tree fuel r node depth last first) s s'
      (print_process_tree opts tree fuel r node depth last first s)
      (print_process_tree opts tree fuel r node depth last first s') := by
  induction fuel with
  | zero =>
    intro r node depth last first s s' _ _ after run
    cases run
  | succ fuel ih =>
    intro r node depth last first s s' lines same
    rw [accesses] at same ⊢
    rw [print_process_tree, print_process_tree]
    dsimp only
    rw [printChildren_entries, printChildren_entries]
    generalize (if opts.align_mode = true then depth + 1 else depth) = index at same ⊢
    obtain ⟨-, sameReads⟩ := List.forall_mem_cons.mp same
    obtain ⟨sameHere, sameBelow⟩ := List.forall_mem_append.mp sameReads
    have stored : ∀ k, s.branch_bar_recorder k = s'.branch_bar_recorder k →
        Function.update s.branch_bar_recorder index (!last) k =
          Function.update s'.branch_bar_recorder index (!last) k := by
      intro k agrees
      by_cases here : k = index
      · rw [here, Function.update_self, Function.update_self]
      · rw [Function.update_of_ne here, Function.update_of_ne here, agrees]
    obtain ⟨offset, isOffset⟩ :
      ∃ offset, offset = (printNode opts (fun _ => false) r node depth last first).2 := ⟨_, rfl⟩
    have sameOffset : ∀ recorder, (printNode opts recorder r node depth last first).2 = offset :=
      fun _ => isOffset.symm
    rw [← printNode_reads fun k member => stored k (sameHere k member), ← lines]
    simp only [sameOffset] at sameBelow ⊢
    generalize s.lines ++ [(printNode opts (Function.update s.branch_bar_recorder index !last) r node
      depth last first).1] = shown
    cases isEntries : entries opts tree node with
    | none =>
      intro after impossible
      cases impossible
    | some es =>
      rw [isEntries] at sameBelow
      have loop : ∀ (es : List Entry) (t t' : Screen), t.lines = t'.lines →
          (∀ k ∈ es.flatMap fun e =>
            accesses opts tree fuel e.child e.node (depth + offset) e.last e.first,
            t.branch_bar_recorder k = t'.branch_bar_recorder k) →
          Agree (es.flatMap fun e =>
              accesses opts tree fuel e.child e.node (depth + offset) e.last e.first) t t'
            (es.foldlM (fun screen e => print_process_tree opts tree fuel e.child e.node
              (depth + offset) e.last e.first screen) t)
            (es.foldlM (fun screen e => print_process_tree opts tree fuel e.child e.node
              (depth + offset) e.last e.first screen) t') := by
        intro es
        induction es with
        | nil =>
          intro t t' lines _ after run
          cases run
          exact ⟨t', rfl, lines.symm, fun k agrees => agrees, fun k _ => rfl⟩
        | cons e es step =>
          intro t t' lines same after run
          rw [List.flatMap_cons] at same ⊢
          obtain ⟨sameE, sameEs⟩ := List.forall_mem_append.mp same
          rw [List.foldlM_cons] at run ⊢
          obtain ⟨middle, first, rest⟩ := Option.bind_eq_some_iff.mp run
          obtain ⟨middle', first', lines', keeps, writes⟩ := ih _ _ _ _ _ t t' lines sameE middle first
          obtain ⟨after', rest', lines'', keeps', writes'⟩ := step middle middle' lines'.symm
            (fun k member => keeps k (sameEs k member)) after rest
          refine ⟨after', ?_, lines'', fun k agrees => keeps' k (keeps k agrees), fun k outside => ?_⟩
          · rw [first']
            exact rest'
          · rw [List.mem_append, not_or] at outside
            rw [writes' k outside.2, writes k outside.1]
      intro after run
      obtain ⟨after', run', lines', keeps, writes⟩ := loop es
        ⟨Function.update s.branch_bar_recorder index (!last), shown⟩
        ⟨Function.update s'.branch_bar_recorder index (!last), shown⟩ rfl
        (fun k member => stored k (sameBelow k member)) after run
      refine ⟨after', run', lines', fun k agrees => keeps k (stored k agrees), fun k outside => ?_⟩
      rw [List.mem_cons, List.mem_append, not_or, not_or] at outside
      rw [writes k outside.2.2]
      exact Function.update_of_ne outside.1 _ _

/-- The step from a node to its children. -/
theorem offset_aligned (aligned : opts.align_mode = true) (recorder : Int → Bool) (r : NodeRef)
    (node : ProcessNode) (column : Nat) (last first : Bool) :
    (column : Int) - 1 + (printNode opts recorder r node (column - 1) last first).2 =
      ((column + (if column = 0 then 1 else 3) + (label opts node).length : Nat) : Int) - 1 := by
  have isLabel : (printNode opts recorder r node (column - 1) last first).2 =
      (if (column : Int) - 1 = -1 then 1 else 3) + ((label opts node).length : Int) := by
    rw [printNode]
    dsimp only
    rw [if_pos aligned]
    rfl
  rw [isLabel]
  by_cases root : column = 0
  · rw [if_pos root, if_pos (by omega)]
    push_cast
    omega
  · rw [if_neg root, if_neg (by omega)]
    push_cast
    omega

/-- The accesses for a node are among those of the whole tree. -/
theorem accesses_stands (aligned : opts.align_mode = true) {init : ProcessNode}
    (present : tree initRef = some init) {r : NodeRef} {node : ProcessNode} {column : Nat}
    (stands : Stands opts tree r node column) (fuel : Nat) : ∃ fuel' last first,
      accesses opts tree fuel r node (column - 1) last first ⊆
        accesses opts tree fuel' initRef init (-1) true true := by
  induction stands generalizing fuel with
  | root present' =>
    rw [present] at present'
    cases present'
    exact ⟨fuel, true, true, fun k member => member⟩
  | @child r node column es e above isEntries member ih =>
    obtain ⟨fuel', last, first, sub⟩ := ih (fuel + 1)
    refine ⟨fuel', e.last, e.first, fun k isAccess => sub ?_⟩
    rw [accesses]
    refine List.mem_cons_of_mem _ (List.mem_append_right _ (List.mem_flatMap.mpr ⟨e, ?_, ?_⟩))
    · rw [isEntries]
      exact member
    · rw [offset_aligned aligned]
      exact isAccess

/-- Printing stays inside `branch_bar_recorder` in align mode, when every node stands in its columns. -/
theorem accesses_iff {init : ProcessNode} (present : tree initRef = some init) :
    (∀ fuel, ∀ k ∈ accesses opts tree fuel initRef init (-1) true true, 0 ≤ k ∧ k < recorderSize) ↔
      opts.align_mode = true ∧ ∀ r node column, Stands opts tree r node column →
        (column : Int) < recorderSize := by
  constructor
  · intro inside
    have aligned : opts.align_mode = true := by
      by_contra ragged
      have first := (inside 1 (-1) (by
        rw [accesses, if_neg ragged]
        exact List.mem_cons_self)).1
      omega
    refine ⟨aligned, fun r node column stands => ?_⟩
    obtain ⟨fuel, last, first, sub⟩ := accesses_stands aligned present stands 1
    refine (inside fuel column (sub ?_)).2
    rw [accesses, if_pos aligned, Int.sub_add_cancel]
    exact List.mem_cons_self
  · rintro ⟨aligned, columns⟩ fuel
    have all : ∀ fuel r node column last first, Stands opts tree r node column →
        ∀ k ∈ accesses opts tree fuel r node (column - 1) last first, 0 ≤ k ∧ k < recorderSize := by
      intro fuel
      induction fuel with
      | zero => exact fun _ _ _ _ _ _ k member => absurd member List.not_mem_nil
      | succ fuel ih =>
        intro r node column last first stands k member
        have here := columns r node column stands
        rw [accesses, if_pos aligned] at member
        rcases List.mem_cons.mp member with rfl | member
        · omega
        rcases List.mem_append.mp member with read | below
        · split_ifs at read
          · cases read
          · obtain ⟨i, inFront, rfl⟩ := List.mem_map.mp read
            have less := List.mem_range.mp inFront
            show 0 ≤ (i : Int) ∧ (i : Int) < recorderSize
            omega
        · obtain ⟨e, isEntry, isAccess⟩ := List.mem_flatMap.mp below
          cases isEntries : entries opts tree node with
          | none =>
            rw [isEntries] at isEntry
            cases isEntry
          | some es =>
            rw [isEntries] at isEntry
            rw [offset_aligned aligned] at isAccess
            exact ih _ _ _ _ _ (.child stands isEntries isEntry) k isAccess
    exact all fuel initRef init 0 true true (.root present)

end Printing

/-! ### The program -/

/-- What the tables have room for. -/
structure Fits (opts : Options) (junk : NodeRef → Text)
    (qsort : (NodeRef → NodeRef → Int) → List NodeRef → List NodeRef) (procs : List Proc) : Prop where
  /-- Every process has a number below `MAX_PROCESSES`, and at most `MAX_CHILDREN` threads are read. -/
  loadable : ∀ proc ∈ procs, Loadable opts proc
  /-- So has every parent, and a process has at most `MAX_CHILDREN` threads and children. -/
  bounded : Bounded (table opts junk procs)
  /-- When process 1 is there, align mode is on. -/
  aligned : table opts junk procs initRef ≠ none → opts.align_mode = true
  /-- Every node that is printed stands in the first 1000 columns. -/
  columns : ∀ r node column, Stands opts (treeOf opts qsort (table opts junk procs)) r node column →
    (column : Int) < recorderSize

/-- **Every access is inside its table exactly when the tables have room.** -/
theorem in_bounds_iff {opts : Options} {junk : NodeRef → Text}
    {qsort : (NodeRef → NodeRef → Int) → List NodeRef → List NodeRef} {procs : List Proc}
    (permutes : ∀ compare l, (qsort compare l).Perm l) :
    InBounds opts junk qsort procs ↔ Fits opts junk qsort procs := by
  have root : ∀ {heap init}, treeOf opts qsort heap initRef = some init → heap initRef ≠ none :=
    fun isInit absent => by
      rw [treeOf, attached, absent] at isInit
      cases isInit
  constructor
  · rintro ⟨heap, tree, read, built, inside⟩
    have fresh := read_all_processes_fresh read
    obtain ⟨loadable, rfl⟩ := read_all_iff.mp read
    obtain ⟨bounded, rfl⟩ := (build_iff permutes fresh (table_children loadable)).mp built
    refine ⟨loadable, bounded, fun present => ?_, fun r node column stands => ?_⟩
    · obtain ⟨old, isOld⟩ := Option.ne_none_iff_exists'.mp present
      have isInit : treeOf opts qsort (table opts junk procs) initRef = some _ :=
        congrArg (Option.map _) (congrArg (Option.map _) isOld)
      exact ((accesses_iff isInit).mp (inside _ isInit)).1
    · have top : ∃ init, treeOf opts qsort (table opts junk procs) initRef = some init := by
        induction stands with
        | root present => exact ⟨_, present⟩
        | child _ _ _ ih => exact ih
      obtain ⟨init, isInit⟩ := top
      exact ((accesses_iff isInit).mp (inside _ isInit)).2 r node column stands
  · intro fits
    have read : read_all_processes opts junk procs = .ok (table opts junk procs) :=
      read_all_iff.mpr ⟨fits.loadable, rfl⟩
    have fresh := read_all_processes_fresh read
    have built : build_process_tree qsort opts (table opts junk procs) =
        .ok (treeOf opts qsort (table opts junk procs)) :=
      (build_iff permutes fresh (table_children fits.loadable)).mpr ⟨fits.bounded, rfl⟩
    exact ⟨_, _, read, built, fun init isInit =>
      (accesses_iff isInit).mpr ⟨fits.aligned (root isInit), fits.columns⟩⟩

/-- "i", the only process. -/
def alone : List Proc := [⟨1, 0, [40, 105, 41], [], []⟩]

/-- The options of `-a`. -/
def commandLines : Options := { startOptions with show_cmdline := true, align_mode := false }

/-- "i" with a child "a", which has a thread "w" and a child "b". -/
def server : List Proc :=
  [⟨1, 0, [40, 105, 41], [], []⟩, ⟨2, 1, [40, 97, 41], [], [(3, [40, 119, 41])]⟩,
    ⟨4, 2, [40, 98, 41], [], []⟩]

def serverTree : Heap
  | .process p =>
    if p = 4 then some ⟨4, 2, [98], [], []⟩
    else if p = 2 then some ⟨2, 1, [97], [], [.process 4, .thread 2 0]⟩
    else if p = 1 then some ⟨1, 0, [105], [], [.process 2]⟩
    else none
  | .thread p i => if p = 2 ∧ i = 0 then some ⟨3, 2, [123, 97, 125], [], []⟩ else none

theorem table_server (p : Nat) : table startOptions (fun _ => []) server (.process p) =
    if p = 4 then some ⟨p, 2, [98], [], []⟩
    else if p = 2 then some ⟨p, 1, [97], [], [.thread p 0]⟩
    else if p = 1 then some ⟨p, 0, [105], [], []⟩
    else none := rfl

theorem childOf_server (p : Nat) :
    (List.range MAX_PROCESSES).filter (childOf (table startOptions (fun _ => []) server) p) =
      (List.range 5).filter (childOf (table startOptions (fun _ => []) server) p) := by
  refine filter_childOf (fun i large => ?_) (by decide) p
  rw [table_server, if_neg (by omega), if_neg (by omega), if_neg (by omega)]

theorem attached_server (p : Nat) :
    attached (table startOptions (fun _ => []) server) MAX_PROCESSES (.process p) =
      if p = 4 then some ⟨4, 2, [98], [], []⟩
      else if p = 2 then some ⟨2, 1, [97], [], [.thread 2 0, .process 4]⟩
      else if p = 1 then some ⟨1, 0, [105], [], [.process 2]⟩
      else none := by
  rw [attached, childOf_server, table_server]
  split_ifs with fourth second first
  · rw [fourth]
    rfl
  · rw [second]
    rfl
  · rw [first]
    rfl
  · rfl

theorem thread_server (p i : Nat) : table startOptions (fun _ => []) server (.thread p i) =
    serverTree (.thread p i) := by
  by_cases second : p = 2
  · subst second
    cases i with
    | zero => rfl
    | succ i => rfl
  · rw [serverTree, if_neg fun both => second both.1]
    show load startOptions (fun _ => []) (load startOptions (fun _ => [])
      (load startOptions (fun _ => []) (fun _ => none) _) _) _ (.thread p i) = none
    rw [load, load, load, if_neg second]
    split_ifs <;> rfl

theorem tree_server : treeOf startOptions insertion (table startOptions (fun _ => []) server) =
    serverTree := by
  funext r
  cases r with
  | thread p i => exact thread_server p i
  | process p =>
    have order : insertion (compareAt (attached (table startOptions (fun _ => []) server)
        MAX_PROCESSES) (ordering startOptions)) [.thread 2 0, .process 4] =
          [.process 4, .thread 2 0] := by
      have above : ¬ compareAt (attached (table startOptions (fun _ => []) server) MAX_PROCESSES)
          (ordering startOptions) (.thread 2 0) (.process 4) ≤ 0 := by
        rw [compareAt, attached_server]
        decide
      simp [insertion, List.insertionSort, above]
    rw [treeOf, attached_server, serverTree]
    split_ifs with fourth second first
    · rfl
    · exact congrArg (fun cs => some (ProcessNode.mk 2 1 [97] [] cs)) order
    · rfl
    · rfl

/-- The three nodes below process 1 stand in columns that the recorder has. -/
theorem in_bounds_server : InBounds startOptions (fun _ => []) insertion server := by
  have known : ∀ {p node}, table startOptions (fun _ => []) server (.process p) = some node →
      p = 4 ∨ p = 2 ∨ p = 1 := by
    intro p node isNode
    rw [table_server] at isNode
    split_ifs at isNode with fourth second first
    · exact Or.inl fourth
    · exact Or.inr (Or.inl second)
    · exact Or.inr (Or.inr first)
  refine (in_bounds_iff insertion_perm).mpr ⟨by decide, ⟨fun {i node} isNode => ?_,
    fun {p node} isNode => ?_⟩, fun _ => rfl, fun r node column stands => ?_⟩
  · rcases known isNode with rfl | rfl | rfl <;>
    · cases isNode
      decide
  · rw [List.countP_eq_length_filter, childOf_server]
    rcases known isNode with rfl | rfl | rfl <;>
    · cases isNode
      decide
  · rw [tree_server] at stands
    have placed : r = initRef ∧ node = ⟨1, 0, [105], [], [.process 2]⟩ ∧ column = 0 ∨
        r = .process 2 ∧ node = ⟨2, 1, [97], [], [.process 4, .thread 2 0]⟩ ∧ column = 2 ∨
        node.children = [] ∧ column = 6 := by
      induction stands with
      | root present => exact Or.inl ⟨rfl, (Option.some.inj present).symm, rfl⟩
      | child _ isEntries member ih =>
        rcases ih with ⟨-, rfl, rfl⟩ | ⟨-, rfl, rfl⟩ | ⟨leaf, -⟩
        · cases isEntries
          obtain rfl := List.mem_singleton.mp member
          exact Or.inr (Or.inl ⟨rfl, rfl, rfl⟩)
        · cases isEntries
          refine Or.inr (Or.inr ?_)
          rcases List.mem_cons.mp member with rfl | member
          · exact ⟨rfl, rfl⟩
          · obtain rfl := List.mem_singleton.mp member
            exact ⟨rfl, rfl⟩
        · rw [entries, leaf] at isEntries
          cases isEntries
          cases member
    rcases placed with ⟨-, -, rfl⟩ | ⟨-, -, rfl⟩ | ⟨-, rfl⟩ <;> decide

/-- With a process whose number is not below `MAX_PROCESSES`, and with command lines, an access is
outside its table. -/
theorem pstree_leaves_tables :
    ¬InBounds startOptions (fun _ => []) insertion (⟨200000, 1, [40, 97, 41], [], []⟩ :: alone) ∧
      ¬InBounds commandLines (fun _ => []) insertion alone := by
  constructor
  · rintro ⟨heap, tree, read, -⟩
    have large := ((read_all_iff.mp read).1 _ List.mem_cons_self).1
    exact absurd large (by decide)
  · rintro ⟨heap, tree, read, built, inside⟩
    have fresh := read_all_processes_fresh read
    obtain ⟨loadable, rfl⟩ := read_all_iff.mp read
    obtain ⟨-, rfl⟩ := (build_iff insertion_perm fresh (table_children loadable)).mp built
    have isInit : treeOf commandLines insertion (table commandLines (fun _ => []) alone) initRef =
        some _ := rfl
    exact Bool.false_ne_true ((accesses_iff isInit).mp (inside _ isInit)).1

end Csc3150.Pstree
