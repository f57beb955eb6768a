/-
**The process forest.**

The parents that `/proc` reports may form any graph; the children lists do not.

* `Sorts` — what `qsort` promises; `consistent_at` — both comparators are orders that it can sort by;
* `count_children` — a process is once among the children of its parent, and of no other node;
* `reaches_iff` — below process 1 are the processes whose chain of parents ends there;
* `print_preorder` — without groups every node below is printed once.
-/

import Csc3150.Pstree.Accounting

namespace Csc3150.Pstree

open Outcome

/-! ### Comparing -/

/-- On these elements the sign of the comparator is that of a total preorder. -/
structure Consistent {α : Type} (compare : α → α → Int) (l : List α) : Prop where
  swap : ∀ a ∈ l, ∀ b ∈ l, compare a b < 0 ↔ 0 < compare b a
  trans : ∀ a ∈ l, ∀ b ∈ l, ∀ c ∈ l, compare a b ≤ 0 → compare b c ≤ 0 → compare a c ≤ 0

/-- What `qsort` promises: the same elements, in order when the comparator is one. -/
structure Sorts (qsort : (NodeRef → NodeRef → Int) → List NodeRef → List NodeRef) : Prop where
  permutes : ∀ compare l, (qsort compare l).Perm l
  ordered : ∀ compare l, Consistent compare l →
    (qsort compare l).Pairwise fun a b => compare a b ≤ 0

theorem strcmp_swap (s t : Text) : strcmp s t < 0 ↔ 0 < strcmp t s := by
  induction s generalizing t with
  | nil => cases t <;> simp [strcmp]
  | cons a s ih =>
    cases t with
    | nil => simp [strcmp]
    | cons b t =>
      rw [strcmp, strcmp]
      by_cases same : a = b
      · rw [if_pos same, if_pos same.symm]
        exact ih t
      · rw [if_neg same, if_neg (Ne.symm same)]
        omega

theorem strcmp_trans {s t u : Text} (first : strcmp s t ≤ 0) (second : strcmp t u ≤ 0) :
    strcmp s u ≤ 0 := by
  induction s generalizing t u with
  | nil => cases u <;> simp [strcmp]
  | cons a s ih =>
    cases t with
    | nil => exact absurd first (by simp [strcmp])
    | cons b t =>
      cases u with
      | nil => exact absurd second (by simp [strcmp])
      | cons c u =>
        rw [strcmp] at first second ⊢
        by_cases ab : a = b
        · subst ab
          rw [if_pos rfl] at first
          by_cases ac : a = c
          · rw [if_pos ac] at second ⊢
            exact ih first second
          · rwa [if_neg ac] at second ⊢
        · rw [if_neg ab] at first
          by_cases bc : b = c
          · subst bc
            rwa [if_neg ab]
          · rw [if_neg bc] at second
            have less : a.toNat ≠ b.toNat := fun same => ab (UInt8.toNat_inj.mp same)
            have different : a ≠ c := by
              rintro rfl
              omega
            rw [if_neg different]
            omega

/-- The comparators are orders on the nodes. -/
theorem consistent_ordering (opts : Options) (l : List ProcessNode) :
    Consistent (ordering opts) l := by
  rw [ordering]
  split_ifs
  · refine ⟨fun a _ b _ => ?_, fun a _ b _ c _ first second => ?_⟩
    · rw [compare_by_pid, compare_by_pid]
      omega
    · rw [compare_by_pid] at first second ⊢
      omega
  · exact ⟨fun a _ b _ => strcmp_swap _ _, fun a _ b _ c _ => strcmp_trans⟩

/-- Both comparators order the nodes that references lead to. -/
theorem consistent_at {heap : Heap} (opts : Options) {l : List NodeRef}
    (known : ∀ r ∈ l, heap r ≠ none) : Consistent (compareAt heap (ordering opts)) l := by
  have order := consistent_ordering opts
  refine ⟨fun a ofA b ofB => ?_, fun a ofA b ofB c ofC => ?_⟩
  · obtain ⟨x, isX⟩ := Option.ne_none_iff_exists'.mp (known a ofA)
    obtain ⟨y, isY⟩ := Option.ne_none_iff_exists'.mp (known b ofB)
    rw [compareAt, compareAt, isX, isY]
    exact (order [x, y]).swap x (by simp) y (by simp)
  · obtain ⟨x, isX⟩ := Option.ne_none_iff_exists'.mp (known a ofA)
    obtain ⟨y, isY⟩ := Option.ne_none_iff_exists'.mp (known b ofB)
    obtain ⟨z, isZ⟩ := Option.ne_none_iff_exists'.mp (known c ofC)
    rw [compareAt, compareAt, compareAt, isX, isY, isZ]
    exact (order [x, y, z]).trans x (by simp) y (by simp) z (by simp)

/-! ### Children -/

section Children

variable {qsort : (NodeRef → NodeRef → Int) → List NodeRef → List NodeRef} {opts : Options}
  {heap tree : Heap}

/-- The children lists are in order. -/
theorem children_ordered (sorts : Sorts qsort) (fresh : Fresh heap)
    (built : build_process_tree qsort opts heap = .ok tree) {r : NodeRef} {node : ProcessNode}
    (isNode : tree r = some node) :
    node.children.Pairwise fun a b => compareAt tree (ordering opts) a b ≤ 0 := by
  obtain ⟨same, linked⟩ := build_linked sorts.permutes fresh built
  have order : compareAt tree (ordering opts) =
      compareAt (attached heap MAX_PROCESSES) (ordering opts) :=
    compareAt_rearranged same fun a b cs cs' => by
      unfold ordering
      split_ifs <;> rfl
  cases r with
  | thread p i =>
    have childless : node.children = [] := List.eq_nil_iff_forall_not_mem.mpr fun x member =>
      linked.leaf ⟨node, isNode, member⟩
    rw [childless]
    exact List.Pairwise.nil
  | process p =>
    have inside : p < MAX_PROCESSES :=
      linked.inside (by rw [isNode]; exact Option.some_ne_none _)
    obtain ⟨old, isOld⟩ := Option.ne_none_iff_exists'.mp
      (same.ne_none.mp (by rw [isNode]; exact Option.some_ne_none _))
    have known : ∀ x ∈ old.children, attached heap MAX_PROCESSES x ≠ none := fun x member =>
      (attached_linked fresh MAX_PROCESSES).known ⟨old, isOld, member⟩
    have children := build_children sorts.permutes inside isOld built
    rw [isNode] at children
    rw [order, Option.some.inj children]
    dsimp only
    split_ifs with many
    · exact sorts.ordered _ _ (consistent_at opts known)
    · obtain empty | ⟨x, single⟩ : old.children = [] ∨ ∃ x, old.children = [x] := by
        rcases Nat.lt_or_eq_of_le (Nat.le_of_not_lt many) with none | one
        · exact Or.inl (List.length_eq_zero_iff.mp (by omega))
        · exact Or.inr (List.length_eq_one_iff.mp one)
      · rw [empty]
        exact List.Pairwise.nil
      · rw [single]
        exact List.pairwise_singleton _ _

/-- **The parent of a process** has it once among its children, and no other node has it. -/
theorem count_children (permutes : ∀ compare l, (qsort compare l).Perm l) (fresh : Fresh heap)
    (built : build_process_tree qsort opts heap = .ok tree) {i : Nat} {node : ProcessNode}
    (isNode : heap (.process i) = some node) {r : NodeRef} {parent : ProcessNode}
    (isParent : tree r = some parent) :
    parent.children.count (.process i) =
      if 0 < node.ppid ∧ r = .process node.ppid.toNat then 1 else 0 := by
  obtain ⟨same, linked⟩ := build_linked permutes fresh built
  have member : NodeRef.process i ∈ parent.children ↔
      0 < node.ppid ∧ r = .process node.ppid.toNat := by
    have child : NodeRef.process i ∈ parent.children ↔ IsChild tree r (.process i) := by
      refine ⟨fun member => ⟨parent, isParent, member⟩, ?_⟩
      rintro ⟨parent', here, member⟩
      rw [isParent] at here
      cases here
      exact member
    rw [child, same.isChild, isChild_attached]
    constructor
    · rintro (old | ⟨q, j, rfl, isI, -, isChild, -⟩)
      · cases r with
        | thread p j => exact absurd old fresh.leaf
        | process p =>
          obtain ⟨j, impossible⟩ := fresh.threads old
          cases impossible
      · cases isI
        rw [childOf, isNode, Option.elim_some, Bool.and_eq_true, decide_eq_true_iff,
          decide_eq_true_iff] at isChild
        exact ⟨isChild.1, congrArg NodeRef.process isChild.2.symm⟩
    · rintro ⟨positive, rfl⟩
      refine Or.inr ⟨_, i, rfl, rfl, fresh.inside (by rw [isNode]; exact Option.some_ne_none _), ?_,
        attached_ne_none.mp (same.ne_none.mp (by rw [isParent]; exact Option.some_ne_none _))⟩
      rw [childOf, isNode, Option.elim_some, Bool.and_eq_true, decide_eq_true_iff,
        decide_eq_true_iff]
      exact ⟨positive, rfl⟩
  split_ifs with isChild
  · exact List.count_eq_one_of_mem (linked.once isParent) (member.mpr isChild)
  · exact List.count_eq_zero.mpr (mt member.mp isChild)

end Children

/-! ### Below process 1 -/

/-- The chain of parents of the process ends at process 1. -/
inductive Reaches (heap : Heap) : Nat → Prop where
  | root : Reaches heap 1
  | parent {i node} : heap (.process i) = some node → 0 < node.ppid →
      Reaches heap node.ppid.toNat → Reaches heap i

section Below

variable {heap tree : Heap}

/-- **Below process 1** are the processes whose chain of parents ends there, and their threads. -/
theorem reaches_iff (fresh : Fresh heap) (same : Rearranged (attached heap MAX_PROCESSES) tree)
    (present : heap (.process 1) ≠ none) {r : NodeRef} :
    (∃ d, Path tree initRef d r) ↔
      (∃ i, r = .process i ∧ Reaches heap i) ∨
      ∃ i j, r = .thread i j ∧ Reaches heap i ∧ IsChild heap (.process i) r := by
  constructor
  · rintro ⟨d, path⟩
    induction path with
    | top => exact Or.inl ⟨1, rfl, .root⟩
    | @child d p r before child ih =>
      rcases isChild_attached.mp (same.isChild.mp child) with old | ⟨q, i, rfl, rfl, -, isChild, -⟩
      · cases p with
        | thread p i => exact absurd old fresh.leaf
        | process p =>
          obtain ⟨j, rfl⟩ := fresh.threads old
          obtain ⟨i, isProcess, reaches⟩ | ⟨i, j, impossible, -⟩ := ih
          · cases isProcess
            exact Or.inr ⟨p, j, rfl, reaches, old⟩
          · cases impossible
      · obtain ⟨i', isProcess, reaches⟩ | ⟨i', j, impossible, -⟩ := ih
        · cases isProcess
          cases isNode : heap (.process i) with
          | none =>
            rw [childOf, isNode] at isChild
            cases isChild
          | some node =>
            rw [childOf, isNode, Option.elim_some, Bool.and_eq_true, decide_eq_true_iff,
              decide_eq_true_iff] at isChild
            obtain ⟨positive, rfl⟩ := isChild
            exact Or.inl ⟨i, rfl, .parent isNode positive reaches⟩
        · cases impossible
  · have process : ∀ {i}, Reaches heap i →
        heap (.process i) ≠ none ∧ ∃ d, Path tree initRef d (.process i) := by
      intro i reaches
      induction reaches with
      | root => exact ⟨present, 0, .top⟩
      | @parent i node isNode positive _ ih =>
        obtain ⟨isParent, d, path⟩ := ih
        have known : heap (.process i) ≠ none := by
          rw [isNode]
          exact Option.some_ne_none _
        refine ⟨known, d + 1, path.child (same.isChild.mpr (isChild_attached.mpr (Or.inr
          ⟨_, i, rfl, rfl, fresh.inside known, ?_, isParent⟩)))⟩
        rw [childOf, isNode, Option.elim_some, Bool.and_eq_true, decide_eq_true_iff,
          decide_eq_true_iff]
        exact ⟨positive, rfl⟩
    rintro (⟨i, rfl, reaches⟩ | ⟨i, j, rfl, reaches, child⟩)
    · exact (process reaches).2
    · obtain ⟨-, d, path⟩ := process reaches
      exact ⟨d + 1, path.child (same.isChild.mpr (isChild_attached.mpr (Or.inl child)))⟩

end Below

/-! ### Printing without groups -/

section Printing

variable {opts : Options} {tree : Heap}

/-- The line of a node under its own name. -/
def markOf (tree : Heap) (r : NodeRef) : Mark := (r, shownOf tree r)

/-- The loop over the children. -/
theorem printChildren_preorder (single : opts.show_compact = false) {levels : Nat}
    {node : ProcessNode} {depth : Int}
    {print : NodeRef → ProcessNode → Int → Bool → Bool → Screen → Option Screen}
    (known : ∀ r ∈ node.children, tree r ≠ none)
    (prints : ∀ r ∈ node.children, ∀ child depth last first screen, tree r = some child →
      Prints (print r child depth last first screen) screen
        ((preorder tree levels r).map (markOf tree))) :
    ∀ rounds i screen, node.children.length ≤ i + rounds →
      Prints (printChildren opts tree print node depth rounds i screen) screen
        (((node.children.drop i).flatMap (preorder tree levels)).map (markOf tree)) := by
  intro rounds
  induction rounds with
  | zero =>
    intro i screen enough
    rw [List.drop_eq_nil_of_le (Nat.add_zero i ▸ enough)]
    exact ⟨screen, [], rfl, (List.append_nil _).symm, rfl⟩
  | succ rounds ih =>
    intro i screen enough
    rw [printChildren]
    cases isChild : node.children[i]? with
    | none =>
      rw [List.drop_eq_nil_of_le (List.getElem?_eq_none_iff.mp isChild)]
      exact ⟨screen, [], rfl, (List.append_nil _).symm, rfl⟩
    | some r =>
      obtain ⟨inside, isR⟩ := List.getElem?_eq_some_iff.mp isChild
      have rest : node.children.drop i = r :: node.children.drop (i + 1) :=
        isR ▸ List.drop_eq_getElem_cons inside
      have member : r ∈ node.children := List.mem_of_getElem? isChild
      obtain ⟨child, isNode⟩ := Option.ne_none_iff_exists'.mp (known r member)
      dsimp only
      rw [isNode, rest, List.flatMap_cons, List.map_append]
      show Prints (if 1 < (if opts.show_compact = true then _ else 1) then _ else _) _ _
      rw [single, if_neg Bool.false_ne_true, if_neg (lt_irrefl 1)]
      exact (prints r member child depth _ _ screen isNode).bind
        fun middle => ih (i + 1) middle (by omega)

/-- **`print_process_tree` ends** and prints every node below once, in preorder. -/
theorem print_preorder (single : opts.show_compact = false)
    (known : ∀ p r, IsChild tree p r → tree r ≠ none) (levels : Nat) :
    ∀ r node depth last first screen, Within tree levels r → tree r = some node →
      Prints (print_process_tree opts tree levels r node depth last first screen) screen
        ((preorder tree levels r).map (markOf tree)) := by
  induction levels with
  | zero => exact fun r _ _ _ _ _ within => absurd (within 0 r .top) (Nat.not_lt_zero 0)
  | succ levels ih =>
    intro r node depth last first screen within isNode
    have child : ∀ {x}, x ∈ node.children → IsChild tree r x := fun member => ⟨node, isNode, member⟩
    obtain ⟨after, lines, ran, shows, marks⟩ := printChildren_preorder single
      (fun x member => known r x (child member))
      (fun x member node depth last first screen => ih x node depth last first screen
        (within.child (child member)))
      node.children.length 0 _ (Nat.le_of_eq (Nat.zero_add _).symm)
    refine ⟨after, _ :: lines, ran, shows.trans (List.append_assoc _ _ _), ?_⟩
    rw [List.map_cons, marks, preorder, isNode, List.map_cons]
    refine congrArg (· :: _) (congrArg (Prod.mk r) ?_)
    rw [shownOf, isNode]
    rfl

end Printing

/-! ### The whole forest -/

/-- **The forest is exact, and printing it ends.** In a table that keeps the limits, the tree is built;
each process is once among the children of its parent and nowhere else; the children are in order; and
without groups the lines from process 1 on stand for the processes whose chain of parents ends there, and
for their threads, each once. -/
theorem forest_exact {qsort : (NodeRef → NodeRef → Int) → List NodeRef → List NodeRef} {opts : Options}
    {junk : NodeRef → Text} {procs : List Proc} {heap : Heap} {init : ProcessNode} (sorts : Sorts qsort)
    (read : read_all_processes opts junk procs = .ok heap)
    (parents : ∀ {i node}, heap (.process i) = some node → node.ppid < MAX_PROCESSES)
    (few : ∀ {p node}, heap (.process p) = some node →
      node.children.length + (List.range MAX_PROCESSES).countP (childOf heap p) ≤ MAX_CHILDREN)
    (present : heap (.process 1) = some init) (root : init.ppid ≤ 0) :
    ∃ tree, build_process_tree qsort opts heap = .ok tree ∧
      (∀ i node r parent, heap (.process i) = some node → tree r = some parent →
        parent.children.count (.process i) =
          if 0 < node.ppid ∧ r = .process node.ppid.toNat then 1 else 0) ∧
      (∀ r node, tree r = some node →
        node.children.Pairwise fun a b => compareAt tree (ordering opts) a b ≤ 0) ∧
      (opts.show_compact = false → ∀ fuel, MAX_PROCESSES < fuel → ∀ node, tree initRef = some node →
        ∀ screen, ∃ after lines,
          print_process_tree opts tree fuel initRef node (-1) true true screen = some after ∧
          after.lines = screen.lines ++ lines ∧ (lines.map Line.node).Nodup ∧
          ∀ r, r ∈ lines.map Line.node ↔
            (∃ i, r = .process i ∧ Reaches heap i) ∨
            ∃ i j, r = .thread i j ∧ Reaches heap i ∧ IsChild heap (.process i) r) := by
  have fresh := read_all_processes_fresh read
  have limit : ∀ {i node}, heap (.process i) = some node → 0 < node.ppid →
      node.ppid.toNat < MAX_PROCESSES := by
    intro i node isNode positive
    have below := parents isNode
    omega
  have room : ∀ {p node}, attached heap MAX_PROCESSES (.process p) = some node →
      node.children.length ≤ MAX_CHILDREN := by
    intro p node isNode
    obtain ⟨old, here, rfl⟩ := Option.map_eq_some_iff.mp isNode
    dsimp only
    rw [List.length_append, List.length_map, ← List.countP_eq_length_filter]
    exact few here
  obtain ⟨tree, built⟩ : ∃ tree, build_process_tree qsort opts heap = .ok tree :=
    ⟨_, build_ok limit room⟩
  obtain ⟨same, linked⟩ := build_linked sorts.permutes fresh built
  have acyclic := acyclic_of_root fresh same present root
  refine ⟨tree, built, fun i node r parent isNode isParent =>
      count_children sorts.permutes fresh built isNode isParent,
    fun r node isNode => children_ordered sorts fresh built isNode, ?_⟩
  intro single fuel enough node isNode screen
  have within : Within tree fuel initRef := fun d r path =>
    lt_of_lt_of_le (within_top linked acyclic d r path) enough
  obtain ⟨after, lines, ran, shows, marks⟩ := print_preorder single (fun _ _ => linked.known) fuel initRef
    node (-1) true true screen within isNode
  have nodes : lines.map Line.node = preorder tree fuel initRef := by
    have first := congrArg (List.map Prod.fst) marks
    rw [List.map_map, List.map_map] at first
    exact first.trans (List.map_id _)
  refine ⟨after, lines, ran, shows, ?_, fun r => ?_⟩
  · rw [nodes]
    exact nodup_preorder linked acyclic .top fuel
  · rw [nodes, mem_preorder, ← reaches_iff fresh same
      (by rw [present]; exact Option.some_ne_none _)]
    exact ⟨fun below => below.imp fun d both => both.2,
      fun below => below.imp fun d path => ⟨within d r path, path⟩⟩

/-! ### A table with a cycle -/

/-- Insertion sort is such a `qsort`. -/
theorem insertion_sorts : Sorts insertion where
  permutes := insertion_perm
  ordered compare l order := by
    induction l with
    | nil => exact List.Pairwise.nil
    | cons a l ih =>
      have sorted := ih ⟨fun x ofX y ofY => order.swap x (List.mem_cons_of_mem a ofX) y
          (List.mem_cons_of_mem a ofY),
        fun x ofX y ofY z ofZ => order.trans x (List.mem_cons_of_mem a ofX) y
          (List.mem_cons_of_mem a ofY) z (List.mem_cons_of_mem a ofZ)⟩
      have inside : ∀ x ∈ insertion compare l, x ∈ a :: l := fun x member =>
        List.mem_cons_of_mem a ((insertion_perm compare l).mem_iff.mp member)
      show ((insertion compare l).orderedInsert (fun a b => compare a b ≤ 0) a).Pairwise _
      generalize insertion compare l = sortedTail at sorted inside
      induction sortedTail with
      | nil => exact List.pairwise_singleton _ a
      | cons b rest step =>
        obtain ⟨first, others⟩ := List.pairwise_cons.mp sorted
        have ofA : a ∈ a :: l := List.mem_cons_self
        have ofB := inside b List.mem_cons_self
        rw [List.orderedInsert]
        split_ifs with front
        · refine List.pairwise_cons.mpr ⟨fun x member => ?_, sorted⟩
          rcases List.mem_cons.mp member with rfl | behind
          · exact front
          · exact order.trans a ofA b ofB x (inside x member) front (first x behind)
        · refine List.pairwise_cons.mpr ⟨fun x member => ?_,
            step others fun x member => inside x (List.mem_cons_of_mem b member)⟩
          rcases List.mem_cons.mp ((List.perm_orderedInsert _ a rest).mem_iff.mp member) with
            rfl | behind
          · have less := (order.swap b ofB x ofA).mpr (Int.not_le.mp front)
            exact Int.le_of_lt less
          · exact first x behind

/-- Without groups. -/
def single : Options := { byPid with show_compact := false }

/-- "i" with the child "a"; "b" and "c" are each other's parents. -/
def tangled : List Proc :=
  [⟨1, 0, [40, 105, 41], [], []⟩, ⟨2, 3, [40, 98, 41], [], []⟩, ⟨3, 2, [40, 99, 41], [], []⟩,
    ⟨4, 1, [40, 97, 41], [], []⟩]

/-- The nodes of this table. -/
def tangledNodes : List ProcessNode :=
  [⟨4, 1, [97], [], []⟩, ⟨3, 2, [99], [], []⟩, ⟨2, 3, [98], [], []⟩, ⟨1, 0, [105], [], []⟩]

/-- A process in front of a small table. -/
theorem heapOf_cons {p : Nat} {node : ProcessNode} {nodes : List ProcessNode} (pid : node.pid = p) :
    heapOf (node :: nodes) = Function.update (heapOf nodes) (.process p) (some node) := by
  funext r
  cases r with
  | thread q i => exact (Function.update_of_ne NodeRef.noConfusion _ _).symm
  | process q =>
    by_cases here : q = p
    · rw [here, Function.update_self]
      exact List.find?_cons_of_pos (p := fun node : ProcessNode => node.pid = p) (decide_eq_true pid)
    · rw [Function.update_of_ne fun same => here (NodeRef.process.inj same)]
      refine List.find?_cons_of_neg (p := fun node : ProcessNode => node.pid = q) fun same => here ?_
      exact Int.ofNat.inj ((of_decide_eq_true same).symm.trans pid)

/-- Reading a process without other threads. -/
theorem read_threadless {opts : Options} {junk : NodeRef → Text} {heap : Heap} {proc : Proc}
    (inside : proc.pid < MAX_PROCESSES) (threadless : proc.threads = [])
    (bare : opts.show_cmdline = false) :
    read_process_info opts junk heap proc = .ok (Function.update heap (.process proc.pid)
      (some ⟨proc.pid, proc.ppid, snprintf (MAX_NAME_LEN + 2) (clean_process_name proc.name), [], []⟩)) := by
  have none : (if opts.show_threads = true then proc.threads else []) = [] := by
    rw [threadless, ite_self]
  unfold read_process_info
  dsimp only
  rw [none, if_neg (Nat.not_le.mpr inside), List.length_nil, if_neg (Nat.not_lt_zero _), bare]
  refine congrArg Except.ok (funext fun r => ?_)
  cases r with
  | thread p i =>
    rw [Function.update_of_ne NodeRef.noConfusion]
    exact ite_self _
  | process p =>
    by_cases here : p = proc.pid
    · rw [here, Function.update_self]
      exact if_pos rfl
    · rw [Function.update_of_ne fun same => here (NodeRef.process.inj same)]
      exact if_neg here

theorem tangled_read : read_all_processes single (fun _ => []) tangled = .ok (heapOf tangledNodes) := by
  have empty : heapOf [] = fun _ => none := funext fun r => by cases r <;> rfl
  have first := @read_threadless single (fun _ => [])
  rw [tangledNodes, @heapOf_cons 4 _ _ rfl, @heapOf_cons 3 _ _ rfl, @heapOf_cons 2 _ _ rfl,
    @heapOf_cons 1 _ _ rfl, empty, read_all_processes, tangled]
  rw [List.foldlM_cons, bind_of_ok (first (by decide) rfl rfl), List.foldlM_cons,
    bind_of_ok (first (by decide) rfl rfl), List.foldlM_cons, bind_of_ok (first (by decide) rfl rfl),
    List.foldlM_cons, bind_of_ok (first (by decide) rfl rfl)]
  rfl

theorem forest_exact_tangled : ∃ tree, build_process_tree insertion single (heapOf tangledNodes) = .ok tree ∧
    (∀ parent, tree initRef = some parent → parent.children.count (.process 4) = 1) ∧
    ∀ parent, tree (.process 3) = some parent → parent.children.count (.process 2) = 1 := by
  have bounded : ∀ node ∈ tangledNodes, node.pid < (5 : Nat) := by decide
  have limits : ∀ node ∈ tangledNodes, node.ppid < MAX_PROCESSES ∧ node.children = [] := by decide
  obtain ⟨tree, built, once, -⟩ := @forest_exact insertion single (fun _ => []) tangled _ _
    insertion_sorts tangled_read
    (fun isNode => (limits _ (heapOf_some isNode).1).1)
    (fun {p node} isNode => by
      rw [(limits _ (heapOf_some isNode).1).2, List.countP_eq_length_filter,
        heapOf_children bounded (by decide)]
      have few := List.length_filter_le (childOf (heapOf tangledNodes) p) (List.range 5)
      rw [List.length_range] at few
      exact le_trans (Nat.le_of_eq (Nat.zero_add _)) (le_trans few (by decide)))
    rfl le_rfl
  exact ⟨tree, built, fun parent isParent => once 4 _ _ parent rfl isParent,
    fun parent isParent => once 2 _ _ parent rfl isParent⟩

end Csc3150.Pstree
