/-
**The tree that `build_process_tree` builds.**

* `attach_attached` — one round of the first loop: a process joins the children of its parent;
* `build_linked` — in the tree every node has at most one parent, which has it once;
* `preorder`, `mem_preorder`, `nodup_preorder` — the nodes below a node, each once.
-/

import Csc3150.Library.Outcome
import Csc3150.Pstree.Model
import Mathlib.Data.Fintype.Card
import Mathlib.Data.List.Nodup
import Mathlib.Logic.Relation

namespace Csc3150.Pstree

open Outcome

/-! ### Parents -/

/-- The node is among the children of the other one. -/
def IsChild (heap : Heap) (p r : NodeRef) : Prop := ∃ node, heap p = some node ∧ r ∈ node.children

/-- Nodes as `read_all_processes` leaves them: the children of a process are its threads. -/
structure Fresh (heap : Heap) : Prop where
  inside : ∀ {p}, heap (.process p) ≠ none → p < MAX_PROCESSES
  threads : ∀ {p r}, IsChild heap (.process p) r → ∃ i, r = .thread p i
  known : ∀ {p r}, IsChild heap p r → heap r ≠ none
  once : ∀ {p node}, heap p = some node → node.children.Nodup
  leaf : ∀ {p i r}, ¬IsChild heap (.thread p i) r

/-- Every node has at most one parent, which has it once among its children; only processes have
children. -/
structure Linked (heap : Heap) : Prop where
  inside : ∀ {p}, heap (.process p) ≠ none → p < MAX_PROCESSES
  known : ∀ {p r}, IsChild heap p r → heap r ≠ none
  once : ∀ {p node}, heap p = some node → node.children.Nodup
  leaf : ∀ {p i r}, ¬IsChild heap (.thread p i) r
  unique : ∀ {p q r}, IsChild heap p r → IsChild heap q r → p = q

/-! ### Reading -/

section Reading

variable {opts : Options} {junk : NodeRef → Text} {heap after : Heap}

/-- One process is read. -/
theorem read_process_info_fresh {proc : Proc} (fresh : Fresh heap)
    (run : read_process_info opts junk heap proc = .ok after) : Fresh after := by
  unfold read_process_info at run
  generalize clean_process_name proc.name = name at run
  generalize (if opts.show_threads then proc.threads else []) = threads at run
  generalize (if opts.show_cmdline then read_process_cmdline proc.cmdline else []) = cmdline at run
  by_cases outside : MAX_PROCESSES ≤ proc.pid
  · rw [if_pos outside] at run
    cases run
  rw [if_neg outside] at run
  by_cases tooMany : MAX_CHILDREN < threads.length
  · rw [if_pos tooMany] at run
    cases run
  rw [if_neg tooMany] at run
  have same := Except.ok.inj run
  have process : ∀ p, after (.process p) = if p = proc.pid then _ else heap (.process p) :=
    fun p => congrFun same.symm (.process p)
  have thread : ∀ p i, after (.thread p i) = if p = proc.pid then
      threads[i]?.elim (heap (.thread p i)) (fun t => some (threadNode opts junk p i name t))
      else heap (.thread p i) := fun p i => congrFun same.symm (.thread p i)
  have present : ∀ {p i}, heap (.thread p i) ≠ none → after (.thread p i) ≠ none := by
    intro p i old
    rw [thread]
    split_ifs
    · cases threads[i]? with
      | none => exact old
      | some t => exact Option.some_ne_none _
    · exact old
  have threadless : ∀ {p i node}, after (.thread p i) = some node → node.children = [] := by
    intro p i node isNode
    have oldLeaf : ∀ {node}, heap (.thread p i) = some node → node.children = [] := fun here =>
      List.eq_nil_iff_forall_not_mem.mpr fun r member => fresh.leaf ⟨_, here, member⟩
    rw [thread] at isNode
    split_ifs at isNode
    · cases isThread : threads[i]? with
      | none =>
        rw [isThread] at isNode
        exact oldLeaf isNode
      | some t =>
        rw [isThread] at isNode
        cases isNode
        rfl
    · exact oldLeaf isNode
  refine ⟨fun {p} isProcess => ?_, fun {p r} child => ?_, fun {p r} child => ?_,
    fun {p node} isNode => ?_, fun {p i r} child => ?_⟩
  · rw [process] at isProcess
    split_ifs at isProcess with new
    · omega
    · exact fresh.inside isProcess
  · obtain ⟨node, isNode, member⟩ := child
    rw [process] at isNode
    split_ifs at isNode with new
    · cases isNode
      obtain ⟨i, -, rfl⟩ := List.mem_map.mp member
      exact ⟨i, rfl⟩
    · exact fresh.threads ⟨node, isNode, member⟩
  · obtain ⟨node, isNode, member⟩ := child
    cases p with
    | thread p i =>
      rw [threadless isNode] at member
      cases member
    | process p =>
      rw [process] at isNode
      split_ifs at isNode with new
      · cases isNode
        obtain ⟨i, inside, rfl⟩ := List.mem_map.mp member
        rw [thread, if_pos new, List.getElem?_eq_getElem (List.mem_range.mp inside)]
        exact Option.some_ne_none _
      · obtain ⟨i, rfl⟩ := fresh.threads ⟨node, isNode, member⟩
        exact present (fresh.known ⟨node, isNode, member⟩)
  · cases p with
    | thread p i =>
      rw [threadless isNode]
      exact List.nodup_nil
    | process p =>
      rw [process] at isNode
      split_ifs at isNode with new
      · cases isNode
        exact List.nodup_range.map fun i j equal => (NodeRef.thread.inj equal).2
      · exact fresh.once isNode
  · obtain ⟨node, isNode, member⟩ := child
    rw [threadless isNode] at member
    cases member

/-- What is read of `/proc` is a table of processes with their threads. -/
theorem read_all_processes_fresh {procs : List Proc}
    (run : read_all_processes opts junk procs = .ok after) : Fresh after := by
  have loop : ∀ (procs : List Proc) (heap : Heap), Fresh heap →
      procs.foldlM (read_process_info opts junk) heap = .ok after → Fresh after := by
    intro procs
    induction procs with
    | nil =>
      intro heap fresh ran
      rwa [← Except.ok.inj ran]
    | cons proc procs ih =>
      intro heap fresh ran
      obtain ⟨middle, first, rest⟩ := bind_eq_ok.mp ran
      exact ih middle (read_process_info_fresh fresh first) rest
  have none : ∀ {p r}, ¬IsChild (fun _ => none) p r := by
    rintro p r ⟨node, impossible, -⟩
    cases impossible
  refine loop procs _ ⟨fun present => absurd rfl present, fun child => absurd child none,
    fun child => absurd child none, fun {p node} impossible => ?_, none⟩ run
  cases impossible

end Reading

/-! ### The first loop -/

section Attaching

variable {heap : Heap}

/-- Is this process a child of that one? -/
def childOf (heap : Heap) (p i : Nat) : Bool :=
  (heap (.process i)).elim false fun node => 0 < node.ppid && node.ppid.toNat = p

/-- The nodes after `n` rounds. -/
def attached (heap : Heap) (n : Nat) : Heap
  | .process p => (heap (.process p)).map fun node =>
    { node with children := node.children ++ ((List.range n).filter (childOf heap p)).map .process }
  | .thread p i => heap (.thread p i)

theorem attached_zero : attached heap 0 = heap := by
  funext r
  cases r with
  | thread p i => rfl
  | process p =>
    rw [attached]
    cases heap (.process p) with
    | none => rfl
    | some node => exact congrArg some (by rw [List.range_zero]; exact congrArg _ (List.append_nil _))

/-- The children of a process after a round. -/
theorem attached_succ (n p : Nat) : attached heap (n + 1) (.process p) =
    if childOf heap p n then (attached heap n (.process p)).map fun node =>
      { node with children := node.children ++ [.process n] }
    else attached heap n (.process p) := by
  rw [attached, attached, List.range_succ, List.filter_append, Option.map_map]
  by_cases child : childOf heap p n = true
  · rw [if_pos child, List.filter_cons_of_pos child]
    refine congrArg (Option.map · _) (funext fun node => ?_)
    show ({ node with children := _ } : ProcessNode) = { node with children := _ }
    rw [List.map_append, List.append_assoc]
    rfl
  · rw [if_neg child, List.filter_cons_of_neg child, List.filter_nil, List.append_nil]

/-- One round of the first loop. -/
theorem attach_attached {n : Nat} {after : Heap} (run : attach (attached heap n) n = .ok after) :
    after = attached heap (n + 1) := by
  rw [attach] at run
  cases isNode : heap (.process n) with
  | none =>
    rw [attached, isNode] at run
    cases run
    funext r
    cases r with
    | thread p i => rfl
    | process p =>
      rw [attached_succ, childOf, isNode]
      exact (if_neg Bool.false_ne_true).symm
  | some node =>
    have child : ∀ p, childOf heap p n = (0 < node.ppid && node.ppid.toNat = p : Bool) := by
      intro p
      rw [childOf, isNode]
      rfl
    rw [show attached heap n (.process n) = _ from congrArg (Option.map _) isNode] at run
    dsimp only [Option.map_some] at run
    split_ifs at run with positive outside
    · split at run
      · rename_i absent
        cases run
        funext r
        cases r with
        | thread p i => rfl
        | process p =>
          rw [attached_succ]
          split_ifs with here
          · rw [child, Bool.and_eq_true, decide_eq_true_iff, decide_eq_true_iff] at here
            rw [← here.2, absent]
            rfl
          · rfl
      · rename_i parent isParent
        split_ifs at run
        cases run
        funext r
        cases r with
        | thread p i => exact Function.update_of_ne (by simp) _ _
        | process p =>
          rw [attached_succ, child]
          by_cases here : node.ppid.toNat = p
          · subst here
            rw [Function.update_self, if_pos (by simp [positive]), isParent]
            rfl
          · rw [Function.update_of_ne (by simp [Ne.symm here]), if_neg (by simp [here])]
    · cases run
      funext r
      cases r with
      | thread p i => rfl
      | process p => rw [attached_succ, child, if_neg (by simp [positive])]

/-- The first loop. -/
theorem attach_loop (n : Nat) {after : Heap}
    (run : (List.range n).foldlM attach heap = .ok after) : after = attached heap n := by
  induction n generalizing after with
  | zero =>
    rw [attached_zero]
    cases run
    rfl
  | succ n ih =>
    rw [List.range_succ, List.foldlM_append] at run
    obtain ⟨middle, before, last⟩ := bind_eq_ok.mp run
    rw [ih before] at last
    obtain ⟨after', step, done⟩ := bind_eq_ok.mp last
    cases done
    exact attach_attached step

/-- The first loop stays inside `process_tree` and `children`. -/
theorem attach_loop_ok (parents : ∀ {i node}, heap (.process i) = some node → 0 < node.ppid →
      node.ppid.toNat < MAX_PROCESSES)
    (few : ∀ {p node}, attached heap MAX_PROCESSES (.process p) = some node →
      node.children.length ≤ MAX_CHILDREN) (n : Nat) (inside : n ≤ MAX_PROCESSES) :
    (List.range n).foldlM attach heap = .ok (attached heap n) := by
  induction n with
  | zero =>
    rw [attached_zero]
    rfl
  | succ n ih =>
    rw [List.range_succ, List.foldlM_append, ih (Nat.le_of_succ_le inside)]
    show (attach (attached heap n) n >>= pure) = _
    have run : ∃ after, attach (attached heap n) n = .ok after := by
      rw [attach]
      cases isNode : attached heap n (.process n) with
      | none => exact ⟨_, rfl⟩
      | some node =>
        obtain ⟨old, here, rfl⟩ := Option.map_eq_some_iff.mp isNode
        dsimp only
        by_cases positive : 0 < old.ppid
        · have below := parents here positive
          rw [if_pos positive, if_neg (Nat.not_le.mpr below)]
          cases isParent : attached heap n (.process old.ppid.toNat) with
          | none => exact ⟨_, rfl⟩
          | some parent =>
            obtain ⟨old', here', rfl⟩ := Option.map_eq_some_iff.mp isParent
            have child : childOf heap old.ppid.toNat n = true := by
              rw [childOf, here, Option.elim_some, Bool.and_eq_true, decide_eq_true_iff,
                decide_eq_true_iff]
              exact ⟨positive, rfl⟩
            have room := few (congrArg (Option.map _) here')
            have more : ((List.range n).filter (childOf heap old.ppid.toNat)).length + 1 ≤
                ((List.range MAX_PROCESSES).filter (childOf heap old.ppid.toNat)).length := by
              have longer := ((List.range_sublist.mpr inside).filter
                (childOf heap old.ppid.toNat)).length_le
              rwa [List.range_succ, List.filter_append, List.filter_cons_of_pos child, List.length_append]
                at longer
            dsimp only at room ⊢
            rw [List.length_append, List.length_map] at room ⊢
            rw [if_neg (by omega)]
            exact ⟨_, rfl⟩
        · rw [if_neg positive]
          exact ⟨_, rfl⟩
    obtain ⟨after, ran⟩ := run
    rw [ran, attach_attached ran]
    rfl

/-- A child in the tree is a thread, or a process with this parent. -/
theorem isChild_attached {n : Nat} {p r : NodeRef} : IsChild (attached heap n) p r ↔
    IsChild heap p r ∨ ∃ q i, p = .process q ∧ r = .process i ∧ i < n ∧ childOf heap q i = true ∧
      heap p ≠ none := by
  cases p with
  | thread p i =>
    constructor
    · exact fun child => Or.inl child
    · rintro (child | ⟨_, _, impossible, -⟩)
      · exact child
      · cases impossible
  | process p =>
    cases isNode : heap (.process p) with
    | none =>
      constructor
      · rintro ⟨node, here, -⟩
        rw [attached, isNode] at here
        cases here
      · rintro (⟨node, here, -⟩ | ⟨_, _, -, -, -, -, absent⟩)
        · rw [isNode] at here
          cases here
        · exact absurd rfl absent
    | some node =>
      have both : IsChild (attached heap n) (.process p) r ↔
          r ∈ node.children ++ ((List.range n).filter (childOf heap p)).map .process := by
        constructor
        · rintro ⟨node', here, member⟩
          rw [attached, isNode] at here
          cases here
          exact member
        · exact fun member => ⟨_, congrArg (Option.map _) isNode, member⟩
      rw [both, List.mem_append, List.mem_map]
      refine or_congr ⟨fun member => ⟨node, isNode, member⟩, ?_⟩ ?_
      · rintro ⟨node', here, member⟩
        rw [isNode] at here
        cases here
        exact member
      · constructor
        · rintro ⟨i, member, rfl⟩
          obtain ⟨inside, child⟩ := List.mem_filter.mp member
          exact ⟨p, i, rfl, rfl, List.mem_range.mp inside, child, Option.some_ne_none _⟩
        · rintro ⟨q, i, same, rfl, inside, child, -⟩
          cases same
          exact ⟨i, List.mem_filter.mpr ⟨List.mem_range.mpr inside, child⟩, rfl⟩

theorem attached_ne_none {n : Nat} {r : NodeRef} : attached heap n r ≠ none ↔ heap r ≠ none := by
  cases r with
  | thread p i => exact Iff.rfl
  | process p => exact not_congr Option.map_eq_none_iff

/-- The nodes after the first loop. -/
theorem attached_linked (fresh : Fresh heap) (n : Nat) : Linked (attached heap n) where
  inside present := fresh.inside (attached_ne_none.mp present)
  known child := by
    rw [attached_ne_none]
    rcases isChild_attached.mp child with old | ⟨q, i, rfl, rfl, -, isChild, -⟩
    · exact fresh.known old
    · intro absent
      rw [childOf, absent] at isChild
      cases isChild
  once {p node} isNode := by
    cases p with
    | thread p i => exact fresh.once isNode
    | process p =>
      obtain ⟨old, here, rfl⟩ := Option.map_eq_some_iff.mp isNode
      refine List.nodup_append.mpr ⟨fresh.once here, ?_, fun r isThread r' isProcess same => ?_⟩
      · exact (List.nodup_range.filter _).map fun i j same => NodeRef.process.inj same
      · obtain ⟨i, rfl⟩ := fresh.threads ⟨old, here, isThread⟩
        obtain ⟨j, -, rfl⟩ := List.mem_map.mp isProcess
        cases same
  leaf child := by
    rcases isChild_attached.mp child with old | ⟨q, i, impossible, -⟩
    · exact fresh.leaf old
    · cases impossible
  unique {p q r} first second := by
    have thread : ∀ {p r}, IsChild heap p r → ∃ q i, p = .process q ∧ r = .thread q i := by
      intro p r child
      cases p with
      | thread p i => exact absurd child fresh.leaf
      | process q =>
        obtain ⟨i, rfl⟩ := fresh.threads child
        exact ⟨q, i, rfl, rfl⟩
    rcases isChild_attached.mp first with old | ⟨p', i, rfl, rfl, -, isChild, -⟩
    · obtain ⟨p', i, rfl, rfl⟩ := thread old
      rcases isChild_attached.mp second with old' | ⟨_, _, _, impossible, -⟩
      · obtain ⟨q', j, rfl, same⟩ := thread old'
        cases same
        rfl
      · cases impossible
    · rcases isChild_attached.mp second with old' | ⟨q', j, rfl, same, -, isChild', -⟩
      · obtain ⟨q', j, -, impossible⟩ := thread old'
        cases impossible
      · cases same
        cases isNode : heap (.process i) with
        | none =>
          rw [childOf, isNode] at isChild
          cases isChild
        | some node =>
          rw [childOf, isNode, Option.elim_some, Bool.and_eq_true, decide_eq_true_iff,
            decide_eq_true_iff] at isChild isChild'
          rw [← isChild.2, ← isChild'.2]

end Attaching

/-! ### The second loop -/

/-- The same nodes with the same children, in another order. -/
def Rearranged (heap tree : Heap) : Prop :=
  ∀ r, (heap r = none ∧ tree r = none) ∨ ∃ node children, heap r = some node ∧
    tree r = some { node with children := children } ∧ children.Perm node.children

namespace Rearranged

variable {heap middle tree : Heap}

theorem refl (heap : Heap) : Rearranged heap heap := fun r => by
  cases isNode : heap r with
  | none => exact Or.inl ⟨rfl, rfl⟩
  | some node => exact Or.inr ⟨node, node.children, rfl, rfl, List.Perm.refl _⟩

theorem trans (first : Rearranged heap middle) (second : Rearranged middle tree) :
    Rearranged heap tree := fun r => by
  rcases first r with ⟨absent, absent'⟩ | ⟨node, children, here, moved, perm⟩
  · rcases second r with ⟨-, absent''⟩ | ⟨node, -, present, -⟩
    · exact Or.inl ⟨absent, absent''⟩
    · rw [absent'] at present
      cases present
  · rcases second r with ⟨absent, -⟩ | ⟨node', children', again, last, perm'⟩
    · rw [moved] at absent
      cases absent
    · rw [moved] at again
      cases again
      exact Or.inr ⟨node, children', here, last, perm'.trans perm⟩

theorem isChild (same : Rearranged heap tree) {p r : NodeRef} :
    IsChild tree p r ↔ IsChild heap p r := by
  rcases same p with ⟨absent, absent'⟩ | ⟨node, children, here, here', perm⟩
  · constructor
    · rintro ⟨node, present, -⟩
      rw [absent'] at present
      cases present
    · rintro ⟨node, present, -⟩
      rw [absent] at present
      cases present
  · constructor
    · rintro ⟨node', present, member⟩
      rw [here'] at present
      cases present
      exact ⟨node, here, perm.mem_iff.mp member⟩
    · rintro ⟨node', present, member⟩
      rw [here] at present
      cases present
      exact ⟨_, here', perm.mem_iff.mpr member⟩

theorem ne_none (same : Rearranged heap tree) {r : NodeRef} : tree r ≠ none ↔ heap r ≠ none := by
  rcases same r with ⟨absent, absent'⟩ | ⟨node, children, here, here', -⟩
  · rw [absent, absent']
  · rw [here, here']
    exact iff_of_true (Option.some_ne_none _) (Option.some_ne_none _)

theorem linked (same : Rearranged heap tree) (old : Linked heap) : Linked tree where
  inside present := old.inside (same.ne_none.mp present)
  known child := same.ne_none.mpr (old.known (same.isChild.mp child))
  once {p node} isNode := by
    rcases same p with ⟨-, absent⟩ | ⟨node', children, here, here', perm⟩
    · rw [absent] at isNode
      cases isNode
    · rw [here'] at isNode
      cases isNode
      exact perm.nodup_iff.mpr (old.once here)
  leaf child := old.leaf (same.isChild.mp child)
  unique first second := old.unique (same.isChild.mp first) (same.isChild.mp second)

end Rearranged

section Sorting

variable {qsort : (NodeRef → NodeRef → Int) → List NodeRef → List NodeRef} {opts : Options}
  {heap tree : Heap}

theorem sort_children_rearranged (permutes : ∀ compare l, (qsort compare l).Perm l) (i : Nat) :
    Rearranged heap (sort_children qsort opts heap i) := by
  rw [sort_children]
  cases isNode : heap (.process i) with
  | none => exact Rearranged.refl heap
  | some node =>
    by_cases many : 1 < node.children.length
    · dsimp only
      rw [if_pos many]
      intro r
      by_cases here : r = .process i
      · rw [here, Function.update_self]
        exact Or.inr ⟨node, _, isNode, rfl, permutes _ _⟩
      · rw [Function.update_of_ne here]
        exact Rearranged.refl heap r
    · dsimp only
      rw [if_neg many]
      exact Rearranged.refl heap

/-- **The tree that is built** is linked: every node has at most one parent, which has it once. -/
theorem build_linked (permutes : ∀ compare l, (qsort compare l).Perm l) (fresh : Fresh heap)
    (run : build_process_tree qsort opts heap = .ok tree) :
    Rearranged (attached heap MAX_PROCESSES) tree ∧ Linked tree := by
  rw [build_process_tree] at run
  obtain ⟨middle, loop, done⟩ := bind_eq_ok.mp run
  have after := attach_loop MAX_PROCESSES loop
  have sorted : ∀ (l : List Nat) (heap : Heap),
      Rearranged heap (l.foldl (sort_children qsort opts) heap) := by
    intro l
    induction l with
    | nil => exact Rearranged.refl
    | cons i rest ih => exact fun heap => (sort_children_rearranged permutes i).trans (ih _)
  have same : Rearranged (attached heap MAX_PROCESSES) tree := by
    rw [← Except.ok.inj done, ← after]
    exact sorted _ _
  exact ⟨same, same.linked (attached_linked fresh MAX_PROCESSES)⟩

/-- The second loop sorts the children of a process once. -/
theorem sort_loop (permutes : ∀ compare l, (qsort compare l).Perm l) {p : Nat} :
    ∀ (l : List Nat) (heap : Heap), l.Nodup → p ∈ l → ∃ middle, Rearranged heap middle ∧
      middle (.process p) = heap (.process p) ∧
      l.foldl (sort_children qsort opts) heap (.process p) =
        sort_children qsort opts middle p (.process p) := by
  have other : ∀ {i} (heap : Heap), i ≠ p → sort_children qsort opts heap i (.process p) =
      heap (.process p) := by
    intro i heap different
    rw [sort_children]
    cases heap (.process i) with
    | none => rfl
    | some node =>
      dsimp only
      by_cases many : 1 < node.children.length
      · rw [if_pos many]
        exact Function.update_of_ne (fun same => different (NodeRef.process.inj same).symm) _ _
      · rw [if_neg many]
  have absent : ∀ (l : List Nat) (heap : Heap), p ∉ l →
      l.foldl (sort_children qsort opts) heap (.process p) = heap (.process p) := by
    intro l
    induction l with
    | nil => exact fun heap _ => rfl
    | cons i l ih =>
      intro heap notIn
      have different : i ≠ p := fun same => notIn (same ▸ List.mem_cons_self)
      exact (ih _ fun member => notIn (List.mem_cons_of_mem _ member)).trans (other heap different)
  intro l
  induction l with
  | nil => exact fun heap _ member => absurd member List.not_mem_nil
  | cons i l ih =>
    intro heap once member
    obtain ⟨notIn, once⟩ := List.nodup_cons.mp once
    by_cases here : i = p
    · subst here
      exact ⟨heap, Rearranged.refl heap, rfl, absent l _ notIn⟩
    · obtain ⟨middle, same, unchanged, sorted⟩ := ih (sort_children qsort opts heap i) once
        ((List.mem_cons.mp member).resolve_left (Ne.symm here))
      exact ⟨middle, (sort_children_rearranged permutes i).trans same, unchanged.trans (other heap here),
        sorted⟩

/-- The order of the children depends on the nodes, not on how they are arranged. -/
theorem compareAt_rearranged (same : Rearranged heap tree)
    {compare : ProcessNode → ProcessNode → Int}
    (fields : ∀ a b cs cs', compare { a with children := cs } { b with children := cs' } = compare a b) :
    compareAt tree compare = compareAt heap compare := by
  funext a b
  rw [compareAt, compareAt]
  rcases same a with ⟨absent, absent'⟩ | ⟨node, cs, here, here', -⟩
  · rw [absent, absent']
  · rcases same b with ⟨absent, absent'⟩ | ⟨node', cs', again, again', -⟩
    · rw [here, here', absent, absent']
    · rw [here, here', again, again']
      exact fields node node' cs cs'

/-- `sort_by_pid ? compare_by_pid : compare_by_name` -/
def ordering (opts : Options) : ProcessNode → ProcessNode → Int :=
  if opts.sort_by_pid then compare_by_pid else compare_by_name

/-- The children of a process in the tree. -/
theorem build_children (permutes : ∀ compare l, (qsort compare l).Perm l) {p : Nat} {node : ProcessNode}
    (inside : p < MAX_PROCESSES) (isNode : attached heap MAX_PROCESSES (.process p) = some node)
    (run : build_process_tree qsort opts heap = .ok tree) :
    tree (.process p) = some { node with
      children := if 1 < node.children.length then
        qsort (compareAt (attached heap MAX_PROCESSES) (ordering opts)) node.children
        else node.children } := by
  rw [build_process_tree] at run
  obtain ⟨middle, loop, done⟩ := bind_eq_ok.mp run
  rw [← Except.ok.inj done, attach_loop MAX_PROCESSES loop]
  obtain ⟨middle, same, unchanged, sorted⟩ := @sort_loop qsort opts permutes p
    (List.range MAX_PROCESSES) (attached heap MAX_PROCESSES) List.nodup_range (List.mem_range.mpr inside)
  rw [sorted, sort_children, unchanged, isNode]
  dsimp only
  have order : compareAt middle (ordering opts) =
      compareAt (attached heap MAX_PROCESSES) (ordering opts) :=
    compareAt_rearranged same fun a b cs cs' => by
      unfold ordering
      split_ifs <;> rfl
  by_cases many : 1 < node.children.length
  · rw [if_pos many, if_pos many, Function.update_self, ← order]
    rfl
  · rw [if_neg many, if_neg many, unchanged, isNode]

/-- The tree is built when the limits are kept. -/
theorem build_ok (parents : ∀ {i node}, heap (.process i) = some node → 0 < node.ppid →
      node.ppid.toNat < MAX_PROCESSES)
    (few : ∀ {p node}, attached heap MAX_PROCESSES (.process p) = some node →
      node.children.length ≤ MAX_CHILDREN) :
    build_process_tree qsort opts heap = .ok ((List.range MAX_PROCESSES).foldl
      (sort_children qsort opts) (attached heap MAX_PROCESSES)) := by
  rw [build_process_tree]
  exact bind_of_ok (attach_loop_ok parents few MAX_PROCESSES le_rfl)

end Sorting

/-! ### The nodes below a node -/

/-- The node is this many levels below the other one. -/
inductive Path (heap : Heap) (top : NodeRef) : Nat → NodeRef → Prop where
  | top : Path heap top 0 top
  | child {d p r} : Path heap top d p → IsChild heap p r → Path heap top (d + 1) r

/-- The nodes below a node, the node first, down to a number of levels. -/
def preorder (heap : Heap) : Nat → NodeRef → List NodeRef
  | 0, _ => []
  | levels + 1, r => r :: ((heap r).elim [] (·.children)).flatMap (preorder heap levels)

/-- There are fewer levels than this below the node. -/
def Within (heap : Heap) (levels : Nat) (r : NodeRef) : Prop :=
  ∀ d r', Path heap r d r' → d < levels

section Paths

variable {heap : Heap} {top p r : NodeRef} {d d' n : Nat}

theorem Path.append (first : Path heap top d p) (second : Path heap p d' r) :
    Path heap top (d + d') r := by
  induction second with
  | top => exact first
  | child _ child ih => exact ih.child child

theorem Path.of_child (child : IsChild heap top p) (rest : Path heap p d r) :
    Path heap top (d + 1) r := by
  rw [Nat.add_comm]
  exact (Path.child .top child).append rest

theorem Within.child (within : Within heap (n + 1) p) (child : IsChild heap p r) :
    Within heap n r :=
  fun d r' path => Nat.lt_of_succ_lt_succ (within (d + 1) r' (path.of_child child))

theorem path_iff : Path heap top (d + 1) r ↔ ∃ p, IsChild heap top p ∧ Path heap p d r := by
  constructor
  · intro path
    induction d generalizing r with
    | zero =>
      obtain _ | ⟨before, child⟩ := path
      cases before
      exact ⟨r, child, .top⟩
    | succ d ih =>
      obtain _ | ⟨before, child⟩ := path
      obtain ⟨p, isChild, rest⟩ := ih before
      exact ⟨p, isChild, rest.child child⟩
  · rintro ⟨p, child, rest⟩
    exact rest.of_child child

theorem mem_children : r ∈ (heap p).elim [] (·.children) ↔ IsChild heap p r := by
  cases isNode : heap p with
  | none =>
    refine iff_of_false List.not_mem_nil ?_
    rintro ⟨node, here, -⟩
    rw [isNode] at here
    cases here
  | some node =>
    constructor
    · exact fun member => ⟨node, isNode, member⟩
    · rintro ⟨node', here, member⟩
      rw [isNode] at here
      cases here
      exact member

theorem mem_preorder : r ∈ preorder heap n top ↔ ∃ d, d < n ∧ Path heap top d r := by
  induction n generalizing top with
  | zero =>
    refine iff_of_false List.not_mem_nil ?_
    rintro ⟨d, below, -⟩
    exact Nat.not_lt_zero d below
  | succ n ih =>
    rw [preorder, List.mem_cons, List.mem_flatMap]
    constructor
    · rintro (rfl | ⟨p, member, below⟩)
      · exact ⟨0, Nat.succ_pos n, .top⟩
      · obtain ⟨d, inside, path⟩ := ih.mp below
        exact ⟨d + 1, Nat.succ_lt_succ inside, path.of_child (mem_children.mp member)⟩
    · rintro ⟨d, inside, path⟩
      cases d with
      | zero =>
        cases path
        exact Or.inl rfl
      | succ d =>
        obtain ⟨p, child, rest⟩ := path_iff.mp path
        exact Or.inr ⟨p, mem_children.mpr child, ih.mpr ⟨d, Nat.lt_of_succ_lt_succ inside, rest⟩⟩

section Tree

variable (linked : Linked heap) (acyclic : ∀ d, ¬Path heap top (d + 1) top)

include linked in
/-- Paths of one length to one node start at one node. -/
theorem Path.start_unique {q : NodeRef} (first : Path heap p d r) (second : Path heap q d r) :
    p = q := by
  induction d generalizing r with
  | zero =>
    cases first
    cases second
    rfl
  | succ d ih =>
    obtain _ | ⟨before, child⟩ := first
    obtain _ | ⟨before', child'⟩ := second
    rw [linked.unique child child'] at before
    exact ih before before'

include linked acyclic in
/-- Every node is on one level. -/
theorem Path.level_unique (first : Path heap top d r) (second : Path heap top d' r) : d = d' := by
  induction d generalizing r d' with
  | zero =>
    cases first
    cases d' with
    | zero => rfl
    | succ d' => exact absurd second (acyclic d')
  | succ d ih =>
    obtain _ | ⟨before, child⟩ := first
    cases second with
    | top => exact absurd (before.child child) (acyclic d)
    | child before' child' =>
      rw [linked.unique child child'] at before
      rw [ih before before']

include linked acyclic in
/-- A tree has at most as many levels of processes as there are processes. -/
theorem Path.level_le (path : Path heap top d r) : d ≤ MAX_PROCESSES := by
  have above : ∀ {d r}, Path heap top d r → ∀ i, i < d →
      ∃ p, p < MAX_PROCESSES ∧ Path heap top i (.process p) := by
    intro d r path
    induction path with
    | top => exact fun i below => absurd below (Nat.not_lt_zero i)
    | @child d p r before child ih =>
      intro i below
      rcases Nat.lt_succ_iff_lt_or_eq.mp below with earlier | rfl
      · exact ih i earlier
      · cases p with
        | thread p i => exact absurd child linked.leaf
        | process p =>
          obtain ⟨node, present, -⟩ := child
          exact ⟨p, linked.inside (by rw [present]; exact Option.some_ne_none _), before⟩
  choose pid inside stands using fun i : Fin d => above path i.val i.isLt
  have injective : Function.Injective fun i : Fin d => (⟨pid i, inside i⟩ : Fin MAX_PROCESSES) := by
    intro i j same
    have pids : pid i = pid j := congrArg Fin.val same
    have other := stands j
    rw [← pids] at other
    exact Fin.ext ((stands i).level_unique linked acyclic other)
  have card := Fintype.card_le_of_injective _ injective
  rwa [Fintype.card_fin, Fintype.card_fin] at card

include linked acyclic in
theorem within_top : Within heap (MAX_PROCESSES + 1) top :=
  fun _ _ path => Nat.lt_succ_of_le (path.level_le linked acyclic)

include linked acyclic in
/-- Every node below is listed once. -/
theorem nodup_preorder (path : Path heap top d r) (n : Nat) : (preorder heap n r).Nodup := by
  induction n generalizing d r with
  | zero => exact List.nodup_nil
  | succ n ih =>
    rw [preorder]
    cases isNode : heap r with
    | none => exact List.nodup_singleton r
    | some node =>
      rw [Option.elim_some]
      have child : ∀ {p}, p ∈ node.children → IsChild heap r p :=
        fun member => ⟨node, isNode, member⟩
      refine List.nodup_cons.mpr ⟨fun member => ?_, List.nodup_flatMap.mpr
        ⟨fun p member => ih (path.child (child member)), ?_⟩⟩
      · obtain ⟨p, isChild, below⟩ := List.mem_flatMap.mp member
        obtain ⟨d', -, again⟩ := mem_preorder.mp below
        have levels := path.level_unique linked acyclic ((path.child (child isChild)).append again)
        omega
      · refine (linked.once isNode).imp_of_mem fun {p q} first second different => ?_
        intro r' inFirst inSecond
        obtain ⟨m, -, below⟩ := mem_preorder.mp inFirst
        obtain ⟨m', -, below'⟩ := mem_preorder.mp inSecond
        have levels := ((path.child (child first)).append below).level_unique linked acyclic
          ((path.child (child second)).append below')
        obtain rfl : m = m' := by omega
        exact different (below.start_unique linked below')

end Tree

end Paths

end Csc3150.Pstree
