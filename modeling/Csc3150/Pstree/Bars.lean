/-
**The bars in front of a line.**

`branch_bar_recorder` is one array for the whole output; every node stores a flag in its column and
nothing is ever cleared. `place` draws the same tree without it: the bars of a line come from the
ancestors of its node.

* `Clear` — what the recorder holds when a node is printed, and what a completed subtree leaves behind;
* `print_places` — `print_process_tree` prints the lines of `place`;
* `bars_exact` — a line has bars in the columns of its ancestors that have a later sibling, and in no
  others.
-/

import Csc3150.Pstree.Entries

namespace Csc3150.Pstree

/-! ### The lines of a tree, without a recorder -/

/-- An ancestor of a node other than the root: the depth at which it was printed, and whether a later
sibling of it is still to be printed. -/
structure Ancestor where
  depth : Int
  later : Bool

/-- A line, the depth of its node, whether it continues the line of the parent, and the ancestors of the
node other than the root. -/
structure Placed where
  line : Line
  depth : Int
  first : Bool
  above : List Ancestor

/-- The columns behind the ancestors that have a later sibling. -/
def openBars (above : List Ancestor) (c : Int) : Bool :=
  above.any fun a => a.later && decide (c = a.depth + 1)

/-- The bars in front of a line that starts anew: in the columns behind the ancestors that have a later
sibling. -/
def Placed.bars (opts : Options) (p : Placed) : Text :=
  if p.first then [] else ((List.range p.depth.toNat).map fun (c : Nat) =>
    print_bar opts (decide (∃ a ∈ p.above, a.later = true ∧ (c : Int) = a.depth + 1))).flatten

/-- One subtree after the other; `later` says whether another one follows. -/
def placeAll (place : Entry → (later : Bool) → Option (List Placed)) : List Entry → Option (List Placed)
  | [] => some []
  | e :: rest => do
    let here ← place e (!rest.isEmpty)
    let others ← placeAll place rest
    return here ++ others

section Place

variable (opts : Options) (heap : Heap)

/-- The ancestors of the children of a node; the root has depth -1. -/
def below (above : List Ancestor) (depth : Int) (later : Bool) : List Ancestor :=
  if depth = -1 then above else above ++ [⟨depth, later⟩]

/-- The lines of a subtree. -/
def place : Nat → NodeRef → ProcessNode → Int → Bool → Bool → List Ancestor → Option (List Placed)
  | 0, _, _, _, _, _, _ => none
  | fuel + 1, r, node, depth, later, first, above => do
    let here := printNode opts (openBars above) r node depth (!later) first
    let es ← entries opts heap node
    let others ← placeAll (fun e more => place fuel e.child e.node (depth + here.2) more e.first
      (below above depth later)) es
    return ⟨here.1, depth, first, above⟩ :: others

end Place

/-! ### The recorder -/

/-- In every other column than that of the node to be printed, the recorder holds the bars of its
ancestors. -/
def Clear (recorder : Int → Bool) (above : List Ancestor) (depth : Int) : Prop :=
  ∀ c, c ≠ depth + 1 → recorder c = openBars above c

section Recorder

variable {above : List Ancestor} {depth : Int} {later : Bool}

theorem openBars_iff {c : Int} :
    openBars above c = true ↔ ∃ a ∈ above, a.later = true ∧ c = a.depth + 1 := by
  rw [openBars, List.any_eq_true]
  refine exists_congr fun a => and_congr_right fun _ => ?_
  rw [Bool.and_eq_true, decide_eq_true_iff]

/-- There are no bars behind a node. -/
theorem openBars_behind (inside : ∀ a ∈ above, a.depth < depth) {c : Int} (behind : depth < c) :
    openBars above c = false := by
  refine Bool.eq_false_of_not_eq_true fun isOpen => ?_
  obtain ⟨a, member, -, rfl⟩ := openBars_iff.mp isOpen
  have := inside a member
  omega

theorem openBars_below (root : depth = -1 → later = false) (c : Int) :
    openBars (below above depth later) c = (openBars above c || (later && decide (c = depth + 1))) := by
  rw [below]
  split_ifs with isRoot
  · rw [root isRoot, Bool.false_and, Bool.or_false]
  · rw [openBars, List.any_append, List.any_cons, List.any_nil, Bool.or_false, openBars]

theorem below_inside (inside : ∀ a ∈ above, a.depth < depth) {offset : Int} (positive : 0 < offset) :
    ∀ a ∈ below above depth later, a.depth < depth + offset := by
  intro a member
  rw [below] at member
  split_ifs at member
  · have := inside a member
    omega
  · rcases List.mem_append.mp member with old | new
    · have := inside a old
      omega
    · rw [List.mem_singleton.mp new]
      show depth < depth + offset
      omega

/-- The flag of a node, stored in its column, makes the recorder ready for its children. -/
theorem Clear.store {recorder : Int → Bool} (clear : Clear recorder above depth)
    (inside : ∀ a ∈ above, a.depth < depth) (root : depth = -1 → later = false) (offset : Int) :
    Clear (Function.update recorder (depth + 1) later) (below above depth later) (depth + offset) := by
  intro c _
  rw [openBars_below root]
  by_cases here : c = depth + 1
  · rw [here, Function.update_self, openBars_behind inside (by omega), Bool.false_or, decide_eq_true rfl,
      Bool.and_true]
  · rw [Function.update_of_ne here, clear c here, decide_eq_false here, Bool.and_false, Bool.or_false]

end Recorder

/-! ### Printing -/

section Printing

variable {opts : Options} {heap : Heap}

/-- The line of a node depends on the recorder in front of the node only. -/
theorem printNode_congr {recorder recorder' : Int → Bool} {r : NodeRef} {node : ProcessNode}
    {depth : Int} {last first : Bool} (same : ∀ c, c < depth → recorder c = recorder' c) :
    printNode opts recorder r node depth last first =
      printNode opts recorder' r node depth last first := by
  have bars : (List.range depth.toNat).map (fun (i : Nat) => print_bar opts (recorder i)) =
      (List.range depth.toNat).map fun (i : Nat) => print_bar opts (recorder' i) := by
    refine List.map_congr_left fun i member => ?_
    have inFront := List.mem_range.mp member
    rw [same i (by omega)]
  rw [printNode, printNode, bars]

/-- The children stand behind their parent. -/
theorem offset_pos (recorder : Int → Bool) (r : NodeRef) (node : ProcessNode) (depth : Int)
    (last first : Bool) : 0 < (printNode opts recorder r node depth last first).2 := by
  rw [printNode]
  dsimp only
  split_ifs <;> omega

/-- What printing a subtree does to the screen: it adds these lines and leaves this recorder. -/
def Draws (run : Option Screen) (screen : Screen) (places : Option (List Placed))
    (recorder : Int → Bool) : Prop :=
  ∀ after, run = some after → ∃ placed, places = some placed ∧
    after.lines = screen.lines ++ placed.map Placed.line ∧ after.branch_bar_recorder = recorder

/-- The recorder behind a printed node. -/
def leaves (above : List Ancestor) (depth : Int) (later : Bool) : Int → Bool :=
  Function.update (openBars above) (depth + 1) later

theorem leaves_clear (above : List Ancestor) (depth : Int) (later : Bool) :
    Clear (leaves above depth later) above depth := fun _ other => Function.update_of_ne other _ _

/-- The loop over the children. -/
theorem draws_all {above : List Ancestor} {depth : Int} (inside : ∀ a ∈ above, a.depth < depth)
    {print : NodeRef → ProcessNode → Int → Bool → Bool → Screen → Option Screen}
    {place : Entry → Bool → Option (List Placed)} {es : List Entry}
    (each : ∀ e ∈ es, ∀ later screen, Clear screen.branch_bar_recorder above depth →
      Draws (print e.child e.node depth (!later) e.first screen) screen (place e later)
        (leaves above depth later)) :
    LastOnly es → es ≠ [] → ∀ screen, Clear screen.branch_bar_recorder above depth →
      Draws (es.foldlM (fun screen e => print e.child e.node depth e.last e.first screen) screen) screen
        (placeAll place es) (openBars above) := by
  induction es with
  | nil => exact fun _ some => absurd rfl some
  | cons e rest ih =>
    intro lastOnly _ screen clear after run
    rw [List.foldlM_cons] at run
    obtain ⟨middle, first, others⟩ := Option.bind_eq_some_iff.mp run
    have isLast : e.last = !(!rest.isEmpty) := lastOnly.1.trans (Bool.not_not _).symm
    rw [isLast] at first
    obtain ⟨placed, here, shows, left⟩ := each e List.mem_cons_self _ screen clear middle first
    cases rest with
    | nil =>
      cases others
      refine ⟨placed, ?_, shows, ?_⟩
      · rw [placeAll, here]
        show some (placed ++ []) = some placed
        rw [List.append_nil]
      · -- the last child leaves no bar behind
        rw [left, leaves]
        refine Function.update_eq_self_iff.mpr ?_
        exact (openBars_behind inside (by omega)).symm
    | cons e' rest =>
      have clear' : Clear middle.branch_bar_recorder above depth := by
        rw [left]
        exact leaves_clear above depth _
      obtain ⟨placed', next, shows', left'⟩ := ih (fun e member => each e (.tail _ member)) lastOnly.2
        (List.cons_ne_nil _ _) middle clear' after others
      refine ⟨placed ++ placed', ?_, ?_, left'⟩
      · rw [placeAll, here, next]
        rfl
      · rw [shows', shows, List.map_append, List.append_assoc]

/-- **The program prints the lines of `place`**, and the subtree leaves nothing but the flag of its
root in the recorder. -/
theorem print_places (aligned : opts.align_mode = true) (fuel : Nat) :
    ∀ r node depth later first above screen, -1 ≤ depth → (depth = -1 → later = false) →
      (∀ a ∈ above, a.depth < depth) → Clear screen.branch_bar_recorder above depth →
      Draws (print_process_tree opts heap fuel r node depth (!later) first screen) screen
        (place opts heap fuel r node depth later first above) (leaves above depth later) := by
  induction fuel with
  | zero =>
    intro r node depth later first above screen _ _ _ _ after run
    cases run
  | succ fuel ih =>
    intro r node depth later first above screen low root inside clear after run
    rw [print_process_tree, if_pos aligned, Bool.not_not] at run
    have sameLine : printNode opts (Function.update screen.branch_bar_recorder (depth + 1) later) r node
        depth (!later) first = printNode opts (openBars above) r node depth (!later) first :=
      printNode_congr fun c inFront => by
        rw [Function.update_of_ne (by omega), clear c (by omega)]
    have behind := @offset_pos opts (openBars above) r node depth (!later) first
    dsimp only at run
    rw [sameLine, printChildren_entries] at run
    obtain ⟨es, isEntries, run⟩ := Option.bind_eq_some_iff.mp run
    rw [place]
    generalize printNode opts (openBars above) r node depth (!later) first = here at run behind ⊢
    rw [isEntries]
    by_cases childless : es = []
    · subst childless
      cases run
      refine ⟨[⟨here.1, depth, first, above⟩], rfl, rfl, ?_⟩
      funext c
      show Function.update screen.branch_bar_recorder (depth + 1) later c = leaves above depth later c
      by_cases isHere : c = depth + 1
      · rw [isHere, leaves, Function.update_self, Function.update_self]
      · rw [leaves, Function.update_of_ne isHere, Function.update_of_ne isHere, clear c isHere]
    · have deeper : -1 ≤ depth + here.2 := by omega
      have notRoot : depth + here.2 ≠ -1 := by omega
      obtain ⟨placed, isPlaced, shows, left⟩ := draws_all (below_inside inside behind)
        (fun e _ more screen clear => ih e.child e.node (depth + here.2) more e.first
          (below above depth later) screen deeper (fun isRoot => absurd isRoot notRoot)
          (below_inside inside behind) clear)
        (entries_lastOnly isEntries) childless _ (clear.store inside root here.2) after run
      refine ⟨⟨here.1, depth, first, above⟩ :: placed, ?_, ?_, ?_⟩
      · show (placeAll _ es).bind _ = _
        rw [isPlaced]
        rfl
      · rw [shows, List.map_cons, List.append_assoc]
        rfl
      · rw [left]
        funext c
        rw [openBars_below root]
        by_cases isHere : c = depth + 1
        · rw [isHere, leaves, Function.update_self, openBars_behind inside (by omega), Bool.false_or,
            decide_eq_true rfl, Bool.and_true]
        · rw [leaves, Function.update_of_ne isHere, decide_eq_false isHere, Bool.and_false,
            Bool.or_false]

/-- The bars of a placed line. -/
theorem place_bars (aligned : opts.align_mode = true) (fuel : Nat) :
    ∀ r node depth later first above placed,
      place opts heap fuel r node depth later first above = some placed →
        ∀ p ∈ placed, p.line.bars = p.bars opts := by
  induction fuel with
  | zero =>
    intro r node depth later first above placed run
    cases run
  | succ fuel ih =>
    intro r node depth later first above placed run
    rw [place] at run
    obtain ⟨es, -, run⟩ := Option.bind_eq_some_iff.mp run
    obtain ⟨others, rest, run⟩ := Option.bind_eq_some_iff.mp run
    cases run
    have all : ∀ (es : List Entry) others, placeAll (fun e more => place opts heap fuel e.child e.node
        (depth + (printNode opts (openBars above) r node depth (!later) first).2) more e.first
        (below above depth later)) es = some others → ∀ p ∈ others, p.line.bars = p.bars opts := by
      intro es
      induction es with
      | nil =>
        intro others run
        cases run
        exact fun p member => absurd member List.not_mem_nil
      | cons e es step =>
        intro others run
        obtain ⟨front, first, run⟩ := Option.bind_eq_some_iff.mp run
        obtain ⟨back, next, run⟩ := Option.bind_eq_some_iff.mp run
        cases run
        intro p member
        rcases List.mem_append.mp member with inFront | inBack
        · exact ih _ _ _ _ _ _ _ first p inFront
        · exact step _ next p inBack
    intro p member
    rcases List.mem_cons.mp member with rfl | member
    · rw [printNode, aligned, Bool.true_and, Placed.bars]
      dsimp only
      refine congrArg _ (congrArg List.flatten (List.map_congr_left fun c _ => congrArg _ ?_))
      exact Bool.eq_iff_iff.mpr (openBars_iff.trans decide_eq_true_iff.symm)
    · exact all es others rest p member

end Printing

/-- "i" with the children "a" and "c"; "a" with the children "b" and "d", of which "d" starts a line. -/
def branching : List ProcessNode :=
  [⟨1, 0, [105], [], [.process 2, .process 5]⟩, ⟨2, 1, [97], [], [.process 3, .process 4]⟩,
    ⟨3, 2, [98], [], []⟩, ⟨4, 2, [100], [], []⟩, ⟨5, 1, [99], [], []⟩]

/-- Children have larger numbers than their parents. -/
theorem branching_child {p r : NodeRef} (child : IsChild (heapOf branching) p r) :
    ∃ q i, p = .process q ∧ r = .process i ∧ q < i ∧ i ≤ 5 ∧ heapOf branching r ≠ none := by
  obtain ⟨node, isNode, member⟩ := child
  cases p with
  | thread q i => cases isNode
  | process q =>
    obtain ⟨inTable, pid⟩ := heapOf_some isNode
    have all : ∀ node ∈ branching, ∀ r ∈ node.children, ∃ i : Fin 6, r = .process i.val ∧
        node.pid < i.val ∧ (heapOf branching r).isSome = true := by
      decide
    obtain ⟨i, rfl, less, known⟩ := all node inTable r member
    refine ⟨q, i, rfl, rfl, by omega, Nat.le_of_lt_succ i.isLt, ?_⟩
    exact Option.isSome_iff_ne_none.mp known

theorem branching_within : Within (heapOf branching) 6 initRef := by
  intro d r path
  have below : ∃ i, r = .process i ∧ d < i ∧ i ≤ 5 := by
    induction path with
    | top => exact ⟨1, rfl, Nat.one_pos, by decide⟩
    | child before child ih =>
      obtain ⟨q, isQ, less, -⟩ := ih
      obtain ⟨q', i, same, rfl, larger, small, -⟩ := branching_child child
      rw [isQ] at same
      cases same
      exact ⟨i, rfl, by omega, small⟩
  obtain ⟨i, -, less, small⟩ := below
  omega

end Csc3150.Pstree
