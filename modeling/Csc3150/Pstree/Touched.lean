/-
**The command lines of threads.**

The `cmdline` of a thread is never set: it is what `malloc` found. A table is `touched` when something else
was found there.

* `treeOf_touched` — its tree is the touched tree;
* `print_touched` — it prints the same lines, up to the texts of threads;
* `display_same`, `display_less` — what that means for the output;
* `Displayed`, `mem_lines_iff` — the nodes that are printed.
-/

import Csc3150.Pstree.Bounds

namespace Csc3150.Pstree

/-! ### Nodes that are printed -/

/-- The node is printed: process 1, or an entry of a node that is printed. -/
inductive Displayed (opts : Options) (tree : Heap) : NodeRef → ProcessNode → Prop where
  | root {init : ProcessNode} (present : tree initRef = some init) : Displayed opts tree initRef init
  | child {r : NodeRef} {node : ProcessNode} {es : List Entry} {e : Entry}
      (above : Displayed opts tree r node) (isEntries : entries opts tree node = some es)
      (member : e ∈ es) : Displayed opts tree e.child e.node

/-- The bytes of a line. -/
def Line.text (line : Line) : Text :=
  line.bars ++ line.depth_prefix ++ line.output ++ if line.newline then [10] else []

/-- The bytes of the output. -/
def display (lines : List Line) : Text := lines.flatMap Line.text

section Lines

variable {opts : Options} {tree : Heap}

/-- A loop that adds lines of a kind. -/
theorem loop_lines {kind : Line → Prop} {step : Screen → Entry → Option Screen} {es : List Entry}
    (each : ∀ e ∈ es, ∀ screen after, step screen e = some after →
      ∃ lines, after.lines = screen.lines ++ lines ∧ ∀ l ∈ lines, kind l) :
    ∀ screen after, es.foldlM step screen = some after →
      ∃ lines, after.lines = screen.lines ++ lines ∧ ∀ l ∈ lines, kind l := by
  induction es with
  | nil =>
    intro screen after run
    cases run
    exact ⟨[], (List.append_nil _).symm, fun l member => absurd member List.not_mem_nil⟩
  | cons e es ih =>
    intro screen after run
    rw [List.foldlM_cons] at run
    obtain ⟨middle, first, rest⟩ := Option.bind_eq_some_iff.mp run
    obtain ⟨front, shows, here⟩ := each e List.mem_cons_self _ _ first
    obtain ⟨back, shows', there⟩ := ih (fun e member => each e (.tail _ member)) middle after rest
    refine ⟨front ++ back, by rw [shows', shows, List.append_assoc], fun l member => ?_⟩
    rcases List.mem_append.mp member with inFront | inBack
    · exact here l inFront
    · exact there l inBack

/-- Printing adds lines, of nodes that are displayed. -/
theorem print_lines (fuel : Nat) : ∀ r node depth last first screen after,
    Displayed opts tree r node →
    print_process_tree opts tree fuel r node depth last first screen = some after →
    ∃ line lines, after.lines = screen.lines ++ line :: lines ∧ line.node = r ∧
      ∀ l ∈ line :: lines, ∃ n, Displayed opts tree l.node n := by
  induction fuel with
  | zero =>
    intro r node depth last first screen after _ run
    cases run
  | succ fuel ih =>
    intro r node depth last first screen after displayed run
    rw [print_succ] at run
    obtain ⟨es, isEntries, run⟩ := Option.bind_eq_some_iff.mp run
    obtain ⟨lines, shows, below⟩ := loop_lines (fun e member screen after run => by
      obtain ⟨line, lines, shows, -, all⟩ :=
        ih _ _ _ _ _ _ _ (.child displayed isEntries member) run
      exact ⟨line :: lines, shows, all⟩) _ _ run
    refine ⟨_, lines, shows.trans (List.append_assoc _ _ _), rfl, fun l member => ?_⟩
    rcases List.mem_cons.mp member with rfl | member
    · exact ⟨node, displayed⟩
    · exact below l member

/-- The round for one element of a loop that adds lines. -/
theorem loop_round {kind : Line → Prop} {step : Screen → Entry → Option Screen} {es : List Entry}
    (each : ∀ e ∈ es, ∀ screen after, step screen e = some after →
      ∃ lines, after.lines = screen.lines ++ lines ∧ ∀ l ∈ lines, kind l) {e : Entry} (member : e ∈ es) :
    ∀ screen after, es.foldlM step screen = some after →
      ∃ before part, step before e = some part ∧ ∀ line ∈ part.lines, line ∈ after.lines := by
  induction es with
  | nil => exact absurd member List.not_mem_nil
  | cons e' es ih =>
    intro screen after run
    rw [List.foldlM_cons] at run
    obtain ⟨middle, first, rest⟩ := Option.bind_eq_some_iff.mp run
    have later := fun e member => each e (List.mem_cons_of_mem e' member)
    rcases List.mem_cons.mp member with rfl | member
    · obtain ⟨lines, shows, -⟩ := loop_lines later middle after rest
      refine ⟨screen, middle, first, fun line isLine => ?_⟩
      rw [shows]
      exact List.mem_append_left _ isLine
    · exact ih later member middle after rest

/-- A displayed node is printed by a run within the whole run. -/
theorem displayed_run {init : ProcessNode} (present : tree initRef = some init) {fuel : Nat}
    {screen after : Screen} {depth : Int} {last first : Bool}
    (run : print_process_tree opts tree fuel initRef init depth last first screen = some after)
    {r : NodeRef} {node : ProcessNode} (displayed : Displayed opts tree r node) :
    ∃ fuel depth last first screen middle,
      print_process_tree opts tree fuel r node depth last first screen = some middle ∧
      ∀ line ∈ middle.lines, line ∈ after.lines := by
  induction displayed with
  | root present' =>
    rw [present] at present'
    cases present'
    exact ⟨fuel, depth, last, first, screen, after, run, fun line member => member⟩
  | @child r node es e above isEntries member ih =>
    obtain ⟨fuel, depth, last, first, screen, middle, run, sub⟩ := ih
    cases fuel with
    | zero => cases run
    | succ fuel =>
      rw [print_succ, isEntries] at run
      obtain ⟨screen', part, ran, inside⟩ := loop_round (fun e member screen after run => by
        obtain ⟨line, lines, shows, -, all⟩ :=
          print_lines fuel _ _ _ _ _ _ _ (.child above isEntries member) run
        exact ⟨line :: lines, shows, all⟩) member _ _ run
      exact ⟨fuel, _, _, _, screen', part, ran, fun line isLine => sub line (inside line isLine)⟩

/-- The lines of the whole output stand for the displayed nodes. -/
theorem mem_lines_iff {init : ProcessNode} (present : tree initRef = some init) {fuel : Nat}
    {after : Screen} {recorder : Int → Bool} {depth : Int} {last first : Bool}
    (run : print_process_tree opts tree fuel initRef init depth last first ⟨recorder, []⟩ = some after)
    {r : NodeRef} : (∃ line ∈ after.lines, line.node = r) ↔ ∃ node, Displayed opts tree r node := by
  constructor
  · rintro ⟨line, member, rfl⟩
    obtain ⟨top, lines, shows, -, all⟩ := print_lines fuel _ _ _ _ _ _ _ (.root present) run
    rw [shows] at member
    exact all line member
  · rintro ⟨node, displayed⟩
    obtain ⟨fuel', depth', last', first', screen, middle, ran, sub⟩ := displayed_run present run displayed
    obtain ⟨line, lines, shows, isR, -⟩ := print_lines fuel' _ _ _ _ _ _ _ displayed ran
    refine ⟨line, sub line ?_, isR⟩
    rw [shows]
    exact List.mem_append_right _ List.mem_cons_self

end Lines

/-! ### Tables that differ there -/

/-- The node, with this in the `cmdline` of a thread. -/
def touch (junk : NodeRef → Text) : NodeRef → ProcessNode → ProcessNode
  | .process _, node => node
  | .thread p i, node => { node with cmdline := junk (.thread p i) }

/-- The table, with this in the `cmdline` of its threads. -/
def touched (junk : NodeRef → Text) (heap : Heap) : Heap := fun r => (heap r).map (touch junk r)

section Touching

variable {opts : Options} {junk : NodeRef → Text} {heap : Heap}

@[simp] theorem touch_process (p : Nat) (node : ProcessNode) : touch junk (.process p) node = node := rfl

@[simp] theorem touch_children (r : NodeRef) (node : ProcessNode) :
    (touch junk r node).children = node.children := by cases r <;> rfl

@[simp] theorem touch_name (r : NodeRef) (node : ProcessNode) :
    (touch junk r node).name = node.name := by cases r <;> rfl

@[simp] theorem touch_pid (r : NodeRef) (node : ProcessNode) :
    (touch junk r node).pid = node.pid := by cases r <;> rfl

theorem touch_rename (r : NodeRef) (node : ProcessNode) (k : Nat) :
    (touch junk r node).rename k = touch junk r (node.rename k) := by cases r <;> rfl

theorem touched_process (p : Nat) : touched junk heap (.process p) = heap (.process p) := by
  show (heap (.process p)).map (touch junk (.process p)) = _
  cases heap (.process p) <;> rfl

/-- The program reads a touched table. -/
theorem load_touched (proc : Proc) :
    load opts junk (touched junk heap) proc = touched junk (load opts (fun _ => []) heap proc) := by
  funext r
  cases r with
  | process p =>
    rw [touched_process, load, load, touched_process]
  | thread p i =>
    show _ = (load opts (fun _ => []) heap proc (.thread p i)).map (touch junk (.thread p i))
    rw [load, load]
    by_cases here : p = proc.pid
    · rw [if_pos here, if_pos here]
      cases (threadsOf opts proc)[i]? <;> rfl
    · rw [if_neg here, if_neg here]
      rfl

theorem table_touched (procs : List Proc) :
    table opts junk procs = touched junk (table opts (fun _ => []) procs) := by
  have loop : ∀ (procs : List Proc) (start : Heap), procs.foldl (load opts junk) (touched junk start) =
      touched junk (procs.foldl (load opts fun _ => []) start) := by
    intro procs
    induction procs with
    | nil => exact fun start => rfl
    | cons proc procs ih =>
      intro start
      rw [List.foldl_cons, List.foldl_cons, load_touched, ih]
  exact loop procs fun _ => none

theorem attached_touched (n : Nat) : attached (touched junk heap) n = touched junk (attached heap n) := by
  have same : childOf (touched junk heap) = childOf heap := by
    funext p i
    rw [childOf, childOf, touched_process]
  funext r
  cases r with
  | thread p i => rfl
  | process p =>
    rw [touched_process, attached, attached, touched_process, same]

theorem compareAt_touched : compareAt (touched junk heap) (ordering opts) =
    compareAt heap (ordering opts) := by
  funext a b
  rw [compareAt, compareAt, touched, touched]
  cases heap a with
  | none => rfl
  | some node_a =>
    cases heap b with
    | none => rfl
    | some node_b =>
      show ordering opts (touch junk a node_a) (touch junk b node_b) = ordering opts node_a node_b
      rw [ordering]
      split_ifs
      · rw [compare_by_pid, compare_by_pid, touch_pid, touch_pid]
      · rw [compare_by_name, compare_by_name, touch_name, touch_name]

/-- The tree of a touched table. -/
theorem treeOf_touched (qsort : (NodeRef → NodeRef → Int) → List NodeRef → List NodeRef) :
    treeOf opts qsort (touched junk heap) = touched junk (treeOf opts qsort heap) := by
  funext r
  cases r with
  | thread p i => rfl
  | process p =>
    rw [touched_process, treeOf, treeOf, attached_touched, compareAt_touched, touched_process]

/-! ### Printing -/

/-- The entry of a touched table. -/
def Entry.touch (junk : NodeRef → Text) (e : Entry) : Entry :=
  { e with node := Pstree.touch junk e.child e.node }

theorem leafNamed_touched : leafNamed (touched junk heap) = leafNamed heap := by
  funext name r
  rw [leafNamed, leafNamed, touched]
  cases heap r with
  | none => rfl
  | some node =>
    rw [Option.map_some, Option.elim_some, Option.elim_some, touch_name, touch_children]

theorem count_touched (r : NodeRef) (node : ProcessNode) (i : Nat) (name : Text) :
    count_same_name_children (touched junk heap) (touch junk r node) i name =
      count_same_name_children heap node i name := by
  rw [count_same_name_children, count_same_name_children, touch_children, leafNamed_touched]

theorem entriesFrom_touched (r : NodeRef) (node : ProcessNode) (rounds : Nat) : ∀ i,
    entriesFrom opts (touched junk heap) (touch junk r node) rounds i =
      (entriesFrom opts heap node rounds i).map (List.map (Entry.touch junk)) := by
  induction rounds with
  | zero => exact fun i => rfl
  | succ rounds ih =>
    intro i
    rw [entriesFrom, entriesFrom]
    simp only [count_touched]
    rw [touch_children]
    cases node.children[i]? with
    | none => rfl
    | some child =>
      dsimp only
      rw [touched]
      cases heap child with
      | none => rfl
      | some child_node =>
        simp only [Option.map_some, Option.bind_eq_bind, Option.bind_some]
        rw [touch_name]
        generalize (if opts.show_compact = true then
          count_same_name_children heap node i child_node.name else 1) = k
        by_cases several : 1 < k
        · rw [if_pos several, if_pos several]
          cases node.children[i + (k - 1)]? with
          | none => rfl
          | some last =>
            simp only [Option.bind_some, touched]
            cases heap last with
            | none => rfl
            | some last_node =>
              simp only [Option.map_some, Option.bind_some, ih, touch_rename]
              cases entriesFrom opts heap node rounds (i + (k - 1) + 1) <;> rfl
        · rw [if_neg several, if_neg several, ih]
          cases entriesFrom opts heap node rounds (i + 1) <;> rfl

/-- The entries of a touched node. -/
theorem entries_touched (r : NodeRef) (node : ProcessNode) :
    entries opts (touched junk heap) (touch junk r node) =
      (entries opts heap node).map (List.map (Entry.touch junk)) := by
  rw [entries, entries, touch_children]
  exact entriesFrom_touched r node _ 0

end Touching

/-- A thread as it was read: without children, its `cmdline` empty, its name inside the buffer. -/
def Bare (r : NodeRef) (node : ProcessNode) : Prop := ∀ p i, r = .thread p i →
  node.children = [] ∧ node.cmdline = [] ∧ node.name.length ≤ MAX_NAME_LEN + 1

/-- The same line of two runs, up to the text of a thread. -/
structure SameLine (opts : Options) (junk : NodeRef → Text) (l l' : Line) : Prop where
  node : l'.node = l.node
  bars : l'.bars = l.bars
  depth_prefix : l'.depth_prefix = l.depth_prefix
  newline : l'.newline = l.newline
  output : ∃ n, Bare l.node n ∧ l.output = label opts n ∧ l'.output = label opts (touch junk l.node n)

section Printing

variable {opts : Options} {junk : NodeRef → Text} {tree : Heap}

theorem printNode_touched (recorder : Int → Bool) {r : NodeRef} {node : ProcessNode} (depth : Int)
    (last first : Bool) (bare : Bare r node) :
    SameLine opts junk (printNode opts recorder r node depth last first).1
      (printNode opts recorder r (touch junk r node) depth last first).1 where
  node := rfl
  bars := rfl
  depth_prefix := rfl
  newline := congrArg (fun children : List NodeRef => !opts.align_mode || decide (children.length = 0))
    (touch_children r node)
  output := ⟨node, bare, rfl, rfl⟩

/-- The name of a group has room in the buffer. -/
theorem Bare.rename {r : NodeRef} {node : ProcessNode} (bare : Bare r node) (k : Nat) :
    Bare r (node.rename k) := by
  intro p i isThread
  obtain ⟨childless, empty, -⟩ := bare p i isThread
  exact ⟨childless, empty, List.length_take_le _ _⟩

theorem entries_bare (bare : ∀ r node, tree r = some node → Bare r node) {node : ProcessNode}
    {es : List Entry} (isEntries : entries opts tree node = some es) : ∀ e ∈ es, Bare e.child e.node := by
  intro e member
  obtain ⟨node', k, isNode, same | same⟩ := entriesFrom_mem isEntries e member
  · rw [same]
    exact bare _ _ isNode
  · rw [same]
    exact (bare _ _ isNode).rename k

/-- A touched table is printed with the same lines. -/
theorem print_touched (bare : ∀ r node, tree r = some node → Bare r node) (fuel : Nat) :
    ∀ r node depth last first screen screen' after, Bare r node →
      screen'.branch_bar_recorder = screen.branch_bar_recorder →
      List.Forall₂ (SameLine opts junk) screen.lines screen'.lines →
      print_process_tree opts tree fuel r node depth last first screen = some after →
      ∃ after', print_process_tree opts (touched junk tree) fuel r (touch junk r node) depth last first
          screen' = some after' ∧ after'.branch_bar_recorder = after.branch_bar_recorder ∧
        List.Forall₂ (SameLine opts junk) after.lines after'.lines := by
  induction fuel with
  | zero =>
    intro r node depth last first screen screen' after _ _ _ run
    cases run
  | succ fuel ih =>
    intro r node depth last first screen screen' after isBare sameRecorder sameLines run
    rw [print_succ] at run ⊢
    obtain ⟨es, isEntries, run⟩ := Option.bind_eq_some_iff.mp run
    rw [entries_touched, isEntries, sameRecorder]
    dsimp only at run
    generalize Function.update screen.branch_bar_recorder
      (if opts.align_mode then depth + 1 else depth) (!last) = recorder at run
    have lines := List.rel_append sameLines (List.Forall₂.cons
      (@printNode_touched opts junk recorder r node depth last first isBare) List.Forall₂.nil)
    cases r with
    | thread p i =>
      -- a thread has no children, and so its text moves nothing
      rw [entries, (isBare p i rfl).1] at isEntries
      cases isEntries
      cases run
      exact ⟨_, rfl, rfl, lines⟩
    | process p =>
      rw [touch_process] at lines ⊢
      have shown := entries_bare bare isEntries
      dsimp only [Option.map_some, Option.bind_some]
      generalize depth + (printNode opts recorder (.process p) node depth last first).2 = below at run ⊢
      have loop : ∀ (es : List Entry), (∀ e ∈ es, Bare e.child e.node) → ∀ s s' after : Screen,
          s'.branch_bar_recorder = s.branch_bar_recorder →
          List.Forall₂ (SameLine opts junk) s.lines s'.lines →
          es.foldlM (fun screen e => print_process_tree opts tree fuel e.child e.node below e.last e.first
            screen) s = some after →
          ∃ after', (es.map (Entry.touch junk)).foldlM (fun screen e => print_process_tree opts
              (touched junk tree) fuel e.child e.node below e.last e.first screen) s' = some after' ∧
            after'.branch_bar_recorder = after.branch_bar_recorder ∧
            List.Forall₂ (SameLine opts junk) after.lines after'.lines := by
        intro es
        induction es with
        | nil =>
          intro _ s s' after sameRecorder sameLines run
          cases run
          exact ⟨s', rfl, sameRecorder, sameLines⟩
        | cons e es step =>
          intro bareEs s s' after sameRecorder sameLines run
          rw [List.foldlM_cons] at run
          obtain ⟨middle, ran, rest⟩ := Option.bind_eq_some_iff.mp run
          obtain ⟨middle', ran', recorder', lines'⟩ := ih _ _ _ _ _ s s' middle
            (bareEs e List.mem_cons_self) sameRecorder sameLines ran
          obtain ⟨after', rest', recorder'', lines''⟩ := step
            (fun e member => bareEs e (List.mem_cons_of_mem _ member)) middle middle' after recorder' lines'
            rest
          refine ⟨after', ?_, recorder'', lines''⟩
          rw [List.map_cons, List.foldlM_cons]
          exact Option.bind_eq_some_iff.mpr ⟨middle', ran', rest'⟩
      refine loop es shown ⟨recorder, screen.lines ++ [_]⟩ ⟨recorder, screen'.lines ++ [_]⟩ after rfl ?_ run
      exact lines

/-- Without a line of a thread the output is the same. -/
theorem display_same {lines lines' : List Line} (same : List.Forall₂ (SameLine opts junk) lines lines')
    (processes : ∀ l ∈ lines, ∃ p, l.node = .process p) : display lines' = display lines := by
  induction same with
  | nil => rfl
  | @cons l l' lines lines' sameLine _ ih =>
    obtain ⟨first, others⟩ := List.forall_mem_cons.mp processes
    obtain ⟨p, isProcess⟩ := first
    obtain ⟨n, -, isLabel, isLabel'⟩ := sameLine.output
    rw [isProcess, touch_process, ← isLabel] at isLabel'
    have text : l'.text = l.text := by
      rw [Line.text, Line.text, sameLine.bars, sameLine.depth_prefix, sameLine.newline, isLabel']
    rw [display, display, List.flatMap_cons, List.flatMap_cons, text]
    exact congrArg (l.text ++ ·) (ih others)

/-- A command line that fills the local `name`. -/
def longest : Text := List.replicate 259 120

/-- The text of a thread with this command line is longer than its name. -/
theorem label_longer {n n' : ProcessNode} (pid : n'.pid = n.pid) (empty : n.cmdline = [])
    (long : n'.cmdline = longest) (short : n.name.length ≤ MAX_NAME_LEN + 1) :
    (label opts n).length < (label opts n').length := by
  have full : shownName n' = longest := by
    rw [shownName, long, if_pos (by decide)]
    decide +kernel
  have name : (shownName n).length < (shownName n').length := by
    rw [full, shownName, if_neg (not_not.mpr empty), snprintf, longest, List.length_replicate]
    refine lt_of_le_of_lt (List.length_take_le' _ _) (lt_of_le_of_lt short ?_)
    decide
  rw [label, label]
  split_ifs
  · simp only [List.length_append, pid]
    omega
  · exact name

/-- No line gets shorter, and a line of a thread gets longer. -/
theorem display_less {lines lines' : List Line}
    (same : List.Forall₂ (SameLine opts fun _ => longest) lines lines') :
    (display lines).length ≤ (display lines').length ∧
      ((∃ l ∈ lines, ∃ p i, l.node = .thread p i) → (display lines).length < (display lines').length) := by
  induction same with
  | nil => exact ⟨le_rfl, fun thread => absurd thread (by simp)⟩
  | @cons l l' lines lines' sameLine _ ih =>
    obtain ⟨n, bare, isLabel, isLabel'⟩ := sameLine.output
    have output : l.output.length ≤ l'.output.length ∧
        ((∃ p i, l.node = .thread p i) → l.output.length < l'.output.length) := by
      rw [isLabel, isLabel']
      cases isNode : l.node with
      | process p => exact ⟨le_rfl, fun ⟨_, _, impossible⟩ => by cases impossible⟩
      | thread p i =>
        obtain ⟨-, empty, short⟩ := bare p i isNode
        have longer := @label_longer opts n (touch (fun _ => longest) (.thread p i) n) rfl empty rfl short
        exact ⟨longer.le, fun _ => longer⟩
    have length : ∀ (l : Line) (lines : List Line), (display (l :: lines)).length =
        (l.bars ++ l.depth_prefix).length + l.output.length +
          (if l.newline then [10] else [] : Text).length + (display lines).length := by
      intro l lines
      rw [display, List.flatMap_cons, List.length_append, Line.text, List.length_append, List.length_append]
      rfl
    rw [length, length, sameLine.bars, sameLine.depth_prefix, sameLine.newline]
    refine ⟨by omega, fun thread => ?_⟩
    obtain ⟨line, member, isThread⟩ := thread
    rcases List.mem_cons.mp member with rfl | later
    · have more := output.2 isThread
      omega
    · have more := ih.2 ⟨line, later, isThread⟩
      omega

end Printing

end Csc3150.Pstree
