/-
**The program `pstree.c`.**

The nodes of processes and threads lie in a heap; a process holds references to its children. Building the
tree fails where the program would leave `process_tree` or a `children` array. Texts are the bytes before
the terminating zero. What `/proc` says is an argument, and so are `qsort` and the bytes that `malloc`
leaves in the `cmdline` of a thread.
-/

import Mathlib.Algebra.Order.Ring.Nat
import Mathlib.Logic.Function.Basic

namespace Csc3150.Pstree

abbrev MAX_PROCESSES : Nat := 100005
abbrev MAX_CHILDREN : Nat := 100
abbrev MAX_NAME_LEN : Nat := 256

abbrev Text := List UInt8

/-- A node: of a process, or of the thread of a process with this index. -/
inductive NodeRef where
  | process (pid : Nat)
  | thread (pid index : Nat)
  deriving DecidableEq

structure ProcessNode where
  pid : Int
  ppid : Int
  name : Text
  cmdline : Text
  children : List NodeRef

abbrev Heap := NodeRef → Option ProcessNode

/-- An access outside of `process_tree`, or outside of `children`. -/
inductive Fault where
  | process_tree
  | children
  deriving DecidableEq

/-- The flags that `main` sets. -/
structure Options where
  show_threads : Bool
  use_thread_names : Bool
  show_pid : Bool
  show_compact : Bool
  show_cmdline : Bool
  sort_by_pid : Bool
  align_mode : Bool
  show_ascii_tree : Bool

/-! ### Texts -/

def text (s : String) : Text := s.toUTF8.data.toList

/-- What `"%d"` prints. -/
def decimal (n : Int) : Text :=
  (if n < 0 then [45] else []) ++ (Nat.toDigits 10 n.natAbs).map fun c => c.toNat.toUInt8

/-- What `snprintf` leaves in a buffer of this size. -/
def snprintf (size : Nat) (s : Text) : Text := s.take (size - 1)

/-- `char *branch_chars_default[]` and `char *branch_chars_ascii[]` -/
def branch_chars (opts : Options) (i : Fin 5) : Text :=
  if opts.show_ascii_tree then [text "|", text "\x60", text "|", text "-", text "+"].getD i []
  else [text "├", text "└", text "│", text "─", text "┬"].getD i []

/-! ### Reading `/proc` -/

/-- What `/proc` says about a process: the fields of its `stat`, its `cmdline` file, and the numbers and
names of its other threads. -/
structure Proc where
  pid : Nat
  ppid : Int
  name : Text
  cmdline : Text
  threads : List (Int × Text)

/-- Without the enclosing parentheses or brackets. -/
def clean_process_name (name : Text) : Text :=
  if name.headD 0 = 40 ∨ name.headD 0 = 91 then (name.drop 1).dropLast else name

def isspace (c : UInt8) : Bool := c = 32 || (9 ≤ c && c ≤ 13)

def read_process_cmdline (file : Text) : Text :=
  let bytes := file.take 1023
  if 0 < bytes.length then
    ((bytes.map fun c => if c = 0 then 32 else c).reverse.dropWhile isspace).reverse
  else [40, 41]

section Reading

variable (opts : Options) (junk : NodeRef → Text)

/-- The node of a thread; its `cmdline` is not set. -/
def threadNode (pid index : Nat) (name : Text) (thread : Int × Text) : ProcessNode where
  pid := thread.1
  ppid := pid
  name := snprintf (MAX_NAME_LEN + 2)
    ([123] ++ (if opts.use_thread_names then clean_process_name thread.2 else name) ++ [125])
  cmdline := junk (.thread pid index)
  children := []

/-- `read_process_info` and `read_process_threads` -/
def read_process_info (heap : Heap) (proc : Proc) : Except Fault Heap :=
  let name := clean_process_name proc.name
  let threads := if opts.show_threads then proc.threads else []
  if MAX_PROCESSES ≤ proc.pid then .error .process_tree
  else if MAX_CHILDREN < threads.length then .error .children
  else .ok fun r => match r with
    | .process pid =>
      if pid = proc.pid then
        some { pid := pid, ppid := proc.ppid, name := snprintf (MAX_NAME_LEN + 2) name
               cmdline := if opts.show_cmdline then read_process_cmdline proc.cmdline else []
               children := (List.range threads.length).map (.thread pid) }
      else heap r
    | .thread pid index =>
      if pid = proc.pid then
        threads[index]?.elim (heap r) fun thread => some (threadNode opts junk pid index name thread)
      else heap r

def read_all_processes (procs : List Proc) : Except Fault Heap :=
  procs.foldlM (read_process_info opts junk) fun _ => none

end Reading

/-! ### Building the tree -/

/-- `strcmp`, where only the sign counts. -/
def strcmp : Text → Text → Int
  | [], [] => 0
  | [], _ :: _ => -1
  | _ :: _, [] => 1
  | a :: s, b :: t => if a = b then strcmp s t else (a.toNat : Int) - b.toNat

def compare_by_name (a b : ProcessNode) : Int := strcmp a.name b.name

def compare_by_pid (a b : ProcessNode) : Int := a.pid - b.pid

/-- Comparing nodes by what they refer to. -/
def compareAt (heap : Heap) (compare : ProcessNode → ProcessNode → Int) (a b : NodeRef) : Int :=
  match heap a, heap b with
  | some node_a, some node_b => compare node_a node_b
  | _, _ => 0

section Building

variable (qsort : (NodeRef → NodeRef → Int) → List NodeRef → List NodeRef) (opts : Options)

def sort_children (heap : Heap) (i : Nat) : Heap :=
  match heap (.process i) with
  | none => heap
  | some node =>
    if 1 < node.children.length then
      let compare := if opts.sort_by_pid then compare_by_pid else compare_by_name
      Function.update heap (.process i)
        (some { node with children := qsort (compareAt heap compare) node.children })
    else heap

/-- One round of the first loop of `build_process_tree`. -/
def attach (heap : Heap) (i : Nat) : Except Fault Heap :=
  match heap (.process i) with
  | none => .ok heap
  | some node =>
    if 0 < node.ppid then
      if MAX_PROCESSES ≤ node.ppid.toNat then .error .process_tree
      else match heap (.process node.ppid.toNat) with
        | none => .ok heap
        | some parent =>
          if MAX_CHILDREN ≤ parent.children.length then .error .children
          else .ok (Function.update heap (.process node.ppid.toNat)
            (some { parent with children := parent.children ++ [.process i] }))
    else .ok heap

def build_process_tree (heap : Heap) : Except Fault Heap := do
  let heap ← (List.range MAX_PROCESSES).foldlM attach heap
  return (List.range MAX_PROCESSES).foldl (sort_children qsort opts) heap

end Building

/-! ### Printing the tree -/

/-- A childless node of this name. -/
def leafNamed (heap : Heap) (name : Text) (r : NodeRef) : Bool :=
  (heap r).elim false fun child => child.name = name && child.children.length = 0

def count_same_name_children (heap : Heap) (node : ProcessNode) (start_idx : Nat) (name : Text) : Nat :=
  (node.children.drop start_idx).countP (leafNamed heap name)

/-- A printed line: the bars and the prefix before it, the local `name`, the text after the prefix, and
whether the line ends. -/
structure Line where
  node : NodeRef
  bars : Text
  depth_prefix : Text
  name : Text
  output : Text
  newline : Bool

/-- What has been printed, and the bars of the levels above. -/
structure Screen where
  branch_bar_recorder : Int → Bool
  lines : List Line

/-- The name of a command line: from behind the last slash before the first space. -/
def commandName (cmdline : Text) : Text :=
  if 32 ∈ cmdline then
    let before := cmdline.takeWhile (· ≠ 32)
    cmdline.drop (before.length - (before.reverse.takeWhile (· ≠ 47)).length)
  else cmdline

/-- The local `name` of `print_process_tree`. -/
def shownName (node : ProcessNode) : Text :=
  snprintf 260 (if node.cmdline ≠ [] then commandName node.cmdline else node.name)

/-- The name that a group of `k` children is given. -/
def compactName (k : Nat) (name : Text) : Text := decimal k ++ [42, 91] ++ name ++ [93]

/-- `node->name = "k*[name]"` -/
def ProcessNode.rename (node : ProcessNode) (k : Nat) : ProcessNode :=
  { node with name := snprintf (MAX_NAME_LEN + 2) (snprintf 260 (compactName k node.name)) }

section Printing

variable (opts : Options) (heap : Heap)

def print_bar (is_print : Bool) : Text :=
  let bar := if is_print then branch_chars opts 2 else [32]
  if opts.align_mode then bar else [32, 32] ++ bar ++ [32]

/-- The line of a node, and how much deeper its children stand. -/
def printNode (recorder : Int → Bool) (r : NodeRef) (node : ProcessNode) (depth : Int)
    (is_last_child is_first_child : Bool) : Line × Int :=
  let inLine := opts.align_mode && is_first_child
  let branch_prefix :=
    if inLine then branch_chars opts (if is_last_child then 3 else 4)
    else branch_chars opts (if is_last_child then 1 else 0)
  let sep := branch_chars opts 3
  let name := shownName node
  let depth_prefix :=
    if depth = -1 then []
    else if opts.align_mode then (if is_first_child then sep else [32]) ++ branch_prefix ++ sep
    else [32, 32] ++ branch_prefix ++ sep
  let output := if opts.show_pid then name ++ [40] ++ decimal node.pid ++ [41] else name
  let offset : Int :=
    if opts.align_mode then (if depth = -1 then 1 else 3) + output.length else 1
  ({ node := r
     bars := if inLine then [] else
       ((List.range depth.toNat).map fun (i : Nat) => print_bar opts (recorder i)).flatten
     depth_prefix := depth_prefix, name := name, output := output
     newline := !opts.align_mode || node.children.length = 0 }, offset)

/-- The loop over the children, from index `i` on. A group is skipped up to its last child, which is
printed under the name of the group; no later round reads the name again. -/
def printChildren (print : NodeRef → ProcessNode → Int → Bool → Bool → Screen → Option Screen)
    (node : ProcessNode) (depth : Int) : Nat → Nat → Screen → Option Screen
  | 0, _, screen => some screen
  | rounds + 1, i, screen =>
    match node.children[i]? with
    | none => some screen
    | some child => do
      let child_node ← heap child
      let same_name_count := if opts.show_compact then
        count_same_name_children heap node i child_node.name else 1
      if 1 < same_name_count then
        let last := i + (same_name_count - 1)
        let last_child ← node.children[last]?
        let last_node ← heap last_child
        let screen ← print last_child (last_node.rename same_name_count) depth
          (last = node.children.length - 1) (last = 0 || same_name_count = last + 1) screen
        printChildren print node depth rounds (last + 1) screen
      else
        let screen ← print child child_node depth (i = node.children.length - 1) (i = 0) screen
        printChildren print node depth rounds (i + 1) screen

/-- `fuel` bounds the depth of the recursion; `none` when it has run out. -/
def print_process_tree : Nat → NodeRef → ProcessNode → Int → Bool → Bool → Screen → Option Screen
  | 0, _, _, _, _, _, _ => none
  | fuel + 1, r, node, depth, is_last_child, is_first_child, screen =>
    let recorder := Function.update screen.branch_bar_recorder
      (if opts.align_mode then depth + 1 else depth) (!is_last_child)
    let (line, offset) := printNode opts recorder r node depth is_last_child is_first_child
    printChildren opts heap (print_process_tree fuel) node (depth + offset) node.children.length 0
      { branch_bar_recorder := recorder, lines := screen.lines ++ [line] }

end Printing

end Csc3150.Pstree
