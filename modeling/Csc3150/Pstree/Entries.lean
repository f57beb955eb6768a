/-
**The children as the loop prints them.**

The loop over the children of a node skips all but the last child of a group and prints that one under
the name of the group. `entries` are the children that are printed, as the loop passes them on.

* `printChildren_entries` — the loop prints the entries in order;
* `entries_lastOnly` — `is_last_child` is set for the last entry and no other;
* `prints_within` — the program ends on every tree.
-/

import Csc3150.Pstree.Forest

namespace Csc3150.Pstree

/-- A child that is printed: with its name as printed, and the two flags. -/
structure Entry where
  child : NodeRef
  node : ProcessNode
  last : Bool
  first : Bool

section Entries

variable (opts : Options) (heap : Heap)

/-- The children that the loop prints from index `i` on. -/
def entriesFrom (node : ProcessNode) : Nat → Nat → Option (List Entry)
  | 0, _ => some []
  | rounds + 1, i =>
    match node.children[i]? with
    | none => some []
    | some child => do
      let child_node ← heap child
      let same_name_count := if opts.show_compact then
        count_same_name_children heap node i child_node.name else 1
      if 1 < same_name_count then
        let last := i + (same_name_count - 1)
        let last_child ← node.children[last]?
        let last_node ← heap last_child
        let rest ← entriesFrom node rounds (last + 1)
        return ⟨last_child, last_node.rename same_name_count, last = node.children.length - 1,
          last = 0 || same_name_count = last + 1⟩ :: rest
      else
        let rest ← entriesFrom node rounds (i + 1)
        return ⟨child, child_node, i = node.children.length - 1, i = 0⟩ :: rest

/-- The children that are printed. -/
def entries (node : ProcessNode) : Option (List Entry) :=
  entriesFrom opts heap node node.children.length 0

end Entries

/-- `last` is set at the end of the list and nowhere else. -/
def LastOnly : List Entry → Prop
  | [] => True
  | e :: rest => e.last = rest.isEmpty ∧ LastOnly rest

section Loop

variable {opts : Options} {heap : Heap} {node : ProcessNode}

/-- One round of `entriesFrom`. -/
theorem entriesFrom_cases {rounds i : Nat} {es : List Entry}
    (run : entriesFrom opts heap node (rounds + 1) i = some es) :
    (node.children.length ≤ i ∧ es = []) ∨
      ∃ e rest j, es = e :: rest ∧ i ≤ j ∧ j < node.children.length ∧
        node.children[j]? = some e.child ∧ (∃ node' k, heap e.child = some node' ∧
          (e.node = node' ∨ e.node = node'.rename k)) ∧ e.last = decide (j = node.children.length - 1) ∧
        entriesFrom opts heap node rounds (j + 1) = some rest := by
  rw [entriesFrom] at run
  cases isChild : node.children[i]? with
  | none =>
    rw [isChild] at run
    cases run
    exact Or.inl ⟨List.getElem?_eq_none_iff.mp isChild, rfl⟩
  | some child =>
    have inside := (List.getElem?_eq_some_iff.mp isChild).1
    rw [isChild] at run
    obtain ⟨child_node, isNode, run⟩ := Option.bind_eq_some_iff.mp run
    dsimp only at run
    generalize (if opts.show_compact = true then
      count_same_name_children heap node i child_node.name else 1) = k at run
    refine Or.inr ?_
    by_cases several : 1 < k
    · rw [if_pos several] at run
      obtain ⟨last, isLast, run⟩ := Option.bind_eq_some_iff.mp run
      obtain ⟨last_node, isNode', run⟩ := Option.bind_eq_some_iff.mp run
      obtain ⟨rest, isRest, run⟩ := Option.bind_eq_some_iff.mp run
      cases run
      have below := (List.getElem?_eq_some_iff.mp isLast).1
      exact ⟨_, rest, i + (k - 1), rfl, Nat.le_add_right _ _, below, isLast,
        ⟨last_node, k, isNode', Or.inr rfl⟩, rfl, isRest⟩
    · rw [if_neg several] at run
      obtain ⟨rest, isRest, run⟩ := Option.bind_eq_some_iff.mp run
      cases run
      exact ⟨_, rest, i, rfl, le_rfl, inside, isChild, ⟨child_node, k, isNode, Or.inl rfl⟩, rfl,
        isRest⟩

/-- The loop goes on to the last child. -/
theorem entriesFrom_eq_nil {rounds i : Nat} {es : List Entry}
    (enough : node.children.length ≤ i + rounds) (run : entriesFrom opts heap node rounds i = some es) :
    es = [] ↔ node.children.length ≤ i := by
  cases rounds with
  | zero =>
    cases run
    exact iff_of_true rfl enough
  | succ rounds =>
    rcases entriesFrom_cases run with ⟨beyond, rfl⟩ | ⟨e, rest, j, rfl, le, inside, -⟩
    · exact iff_of_true rfl beyond
    · exact iff_of_false (List.cons_ne_nil _ _) (by omega)

theorem entriesFrom_lastOnly {rounds : Nat} : ∀ {i : Nat} {es : List Entry},
    node.children.length ≤ i + rounds → entriesFrom opts heap node rounds i = some es → LastOnly es := by
  induction rounds with
  | zero =>
    intro i es _ run
    cases run
    trivial
  | succ rounds ih =>
    intro i es enough run
    rcases entriesFrom_cases run with ⟨-, rfl⟩ | ⟨e, rest, j, rfl, le, inside, -, -, isLast, next⟩
    · trivial
    · have enough' : node.children.length ≤ j + 1 + rounds := by omega
      refine ⟨?_, ih enough' next⟩
      have atEnd := entriesFrom_eq_nil enough' next
      rw [isLast]
      by_cases last : j = node.children.length - 1
      · rw [decide_eq_true last, atEnd.mpr (by omega)]
        rfl
      · rw [decide_eq_false last]
        cases rest with
        | nil => exact absurd (atEnd.mp rfl) (by omega)
        | cons _ _ => rfl

/-- `is_last_child` marks the last child that is printed. -/
theorem entries_lastOnly {es : List Entry} (run : entries opts heap node = some es) : LastOnly es :=
  entriesFrom_lastOnly (Nat.le_of_eq (Nat.zero_add _).symm) run

/-- An entry is a child, under its own name or that of a group. -/
theorem entriesFrom_mem {rounds : Nat} : ∀ {i : Nat} {es : List Entry},
    entriesFrom opts heap node rounds i = some es → ∀ e ∈ es,
      ∃ node' k, heap e.child = some node' ∧ (e.node = node' ∨ e.node = node'.rename k) := by
  induction rounds with
  | zero =>
    intro i es run
    cases run
    exact fun e member => absurd member List.not_mem_nil
  | succ rounds ih =>
    intro i es run
    rcases entriesFrom_cases run with ⟨-, rfl⟩ | ⟨e, rest, j, rfl, -, -, -, isNode, -, next⟩
    · exact fun e member => absurd member List.not_mem_nil
    · intro e' member
      rcases List.mem_cons.mp member with rfl | later
      · exact isNode
      · exact ih next e' later

/-- The loop prints the entries. -/
theorem printChildren_entriesFrom
    (print : NodeRef → ProcessNode → Int → Bool → Bool → Screen → Option Screen) (depth : Int)
    (rounds : Nat) : ∀ i screen, printChildren opts heap print node depth rounds i screen =
      (entriesFrom opts heap node rounds i).bind fun es =>
        es.foldlM (fun screen e => print e.child e.node depth e.last e.first screen) screen := by
  -- a lookup that fails, and a child that is not printed, end both sides
  have step : ∀ (here : Option Screen) (rest : Option (List Entry)) (e : Entry)
      (f : Screen → Entry → Option Screen) (screen : Screen), f screen e = here →
      (here.bind fun screen => rest.bind fun es => es.foldlM f screen) =
        (rest.bind fun es => some (e :: es)).bind fun es => es.foldlM f screen := by
    intro here rest e f screen same
    cases rest with
    | none => cases here <;> rfl
    | some es =>
      show _ = (e :: es).foldlM f screen
      rw [List.foldlM_cons, same]
      rfl
  induction rounds with
  | zero => exact fun i screen => rfl
  | succ rounds ih =>
    intro i screen
    rw [printChildren, entriesFrom]
    cases node.children[i]? with
    | none => rfl
    | some child =>
      dsimp only
      cases heap child with
      | none => rfl
      | some child_node =>
        show (if 1 < (if opts.show_compact = true then _ else 1) then _ else _) = _
        simp only [Option.bind_eq_bind, Option.bind_some]
        generalize (if opts.show_compact = true then
          count_same_name_children heap node i child_node.name else 1) = k
        by_cases several : 1 < k
        · rw [if_pos several, if_pos several]
          cases node.children[i + (k - 1)]? with
          | none => rfl
          | some last =>
            simp only [Option.bind_some]
            cases heap last with
            | none => rfl
            | some last_node =>
              simp only [Option.bind_some, ih]
              exact step _ _ _ _ _ rfl
        · rw [if_neg several, if_neg several]
          simp only [ih]
          exact step _ _ _ _ _ rfl

theorem printChildren_entries
    (print : NodeRef → ProcessNode → Int → Bool → Bool → Screen → Option Screen) (depth : Int)
    (screen : Screen) : printChildren opts heap print node depth node.children.length 0 screen =
      (entries opts heap node).bind fun es =>
        es.foldlM (fun screen e => print e.child e.node depth e.last e.first screen) screen :=
  printChildren_entriesFrom print depth _ 0 screen

/-- A node is printed, and then its entries. -/
theorem print_succ (fuel : Nat) (r : NodeRef) (node : ProcessNode) (depth : Int) (last first : Bool)
    (screen : Screen) : print_process_tree opts heap (fuel + 1) r node depth last first screen =
      (entries opts heap node).bind fun es =>
        let recorder := Function.update screen.branch_bar_recorder
          (if opts.align_mode then depth + 1 else depth) (!last)
        es.foldlM (fun screen e => print_process_tree opts heap fuel e.child e.node
            (depth + (printNode opts recorder r node depth last first).2) e.last e.first screen)
          ⟨recorder, screen.lines ++ [(printNode opts recorder r node depth last first).1]⟩ :=
  printChildren_entries _ _ _

end Loop

/-- The program ends on every tree. -/
theorem prints_within {opts : Options} {tree : Heap} (known : ∀ p r, IsChild tree p r → tree r ≠ none)
    {levels : Nat} {r : NodeRef} {node : ProcessNode} (within : Within tree levels r)
    (isNode : tree r = some node) (depth : Int) (last first : Bool) (screen : Screen) :
    ∃ after, print_process_tree opts tree levels r node depth last first screen = some after := by
  by_cases compact : opts.show_compact = true
  · have children : node.children = childrenOf tree r := by
      rw [childrenOf, isNode, Option.elim_some]
    obtain ⟨after, -, run, -⟩ := print_walk compact known levels r node depth last first screen within
      children
    exact ⟨after, run⟩
  · obtain ⟨after, -, run, -⟩ := print_preorder (Bool.eq_false_of_not_eq_true compact) known levels r
      node depth last first screen within isNode
    exact ⟨after, run⟩

end Csc3150.Pstree
