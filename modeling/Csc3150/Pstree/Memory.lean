/-
**What the program finds in its memory.**

A variable that `fscanf` does not assign keeps what was on the stack, and the `cmdline` of a thread what
`malloc` found. `Memory` is all of this; `Snapshot` is what `/proc` says.

* `pstree` — the whole program: what it prints for a memory and a snapshot;
* `read_eq` — the memory stands for what was not scanned;
* `pstree_iff` — the output, and when there is one;
* `determined_iff` — when the output is the same for every memory.
-/

import Csc3150.Pstree.Touched

namespace Csc3150.Pstree

open Outcome

/-! ### The program -/

/-- A directory of `/proc`: its number, its `stat` when it can be opened, its `cmdline`, and the directories
in its `task` with their `stat`. -/
structure ProcDir where
  dir : Nat
  stat : Option Text
  cmdline : Text
  task : List (Int × Option Text)

/-- What `/proc` says: every process has one directory, its `stat` starts with that number, and process 1
has no parent. -/
structure Snapshot where
  dirs : List ProcDir
  distinct : (dirs.map ProcDir.dir).Nodup
  own : ∀ d ∈ dirs, ∀ line, d.stat = some line → (fscanf_stat line).pid.getD d.dir = d.dir
  init : ∀ d ∈ dirs, d.dir = 1 → ∀ line ppid, d.stat = some line → (fscanf_stat line).ppid = some ppid →
    ppid ≤ 0

/-- What is in memory before it is written: the locals `name` and `ppid` of `read_process_info`,
`thread_name` of `read_process_threads`, and the `cmdline` of a node. -/
structure Memory where
  name : Nat → Text
  ppid : Nat → Int
  thread_name : Nat → Nat → Text
  cmdline : NodeRef → Text

/-- `fscanf(stat_file, "%*d %s", thread_name)` -/
def fscanf_thread (file : Text) : Option Text :=
  (scanInt file).bind fun scanned => (scanWord (skip scanned.2)).map Prod.fst

/-- The other threads of a process whose `stat` can be opened. -/
def ProcDir.others (d : ProcDir) : List (Int × Text) :=
  d.task.filterMap fun entry => if entry.1 = (d.dir : Int) then none else entry.2.map (Prod.mk entry.1)

section Program

variable (opts : Options) (mem : Memory)

/-- The threads with the names that are scanned. -/
def ProcDir.threads (d : ProcDir) : List (Int × Text) :=
  d.others.mapIdx fun i thread => (thread.1, (fscanf_thread thread.2).getD (mem.thread_name d.dir i))

/-- `read_process_info(dir)` -/
def readDir (heap : Heap) (d : ProcDir) : Except Fault Heap :=
  match d.stat with
  | none => .ok heap
  | some line => read_process_stat opts mem.cmdline heap d.dir line (mem.name d.dir, mem.ppid d.dir)
      d.cmdline (d.threads mem)

def readDirs (dirs : List ProcDir) : Except Fault Heap := dirs.foldlM (readDir opts mem) fun _ => none

/-- What is printed of a tree. -/
def shown (tree : Heap) : Option Text :=
  match tree initRef with
  | none => some []
  | some init => (print_process_tree opts tree (MAX_PROCESSES + 1) initRef init (-1) true true
      ⟨fun _ => false, []⟩).map fun screen => display screen.lines

/-- `main` -/
def pstree (qsort : (NodeRef → NodeRef → Int) → List NodeRef → List NodeRef) (snap : Snapshot) :
    Except Fault (Option Text) := do
  let heap ← readDirs opts mem snap.dirs
  let tree ← build_process_tree qsort opts heap
  return shown opts tree

/-- The process as it is read. -/
def ProcDir.proc (d : ProcDir) : Option Proc :=
  d.stat.map fun line => { pid := d.dir
                           ppid := (fscanf_stat line).ppid.getD (mem.ppid d.dir)
                           name := (fscanf_stat line).name.getD (mem.name d.dir)
                           cmdline := d.cmdline
                           threads := d.threads mem }

def Snapshot.procs (snap : Snapshot) : List Proc := snap.dirs.filterMap (ProcDir.proc mem)

end Program

/-! ### Reading -/

section Reading

variable {opts : Options} {mem : Memory}

theorem readDir_eq (snap : Snapshot) (heap : Heap) {d : ProcDir} (member : d ∈ snap.dirs) :
    readDir opts mem heap d =
      (d.proc mem).elim (.ok heap) (read_process_info opts mem.cmdline heap) := by
  rw [readDir, ProcDir.proc]
  cases isStat : d.stat with
  | none => rfl
  | some line =>
    dsimp only
    rw [read_process_stat, snap.own d member line isStat]
    exact if_neg (Int.not_lt.mpr (Int.natCast_nonneg d.dir))

/-- **The memory stands for what was not scanned.** -/
theorem read_eq (snap : Snapshot) : readDirs opts mem snap.dirs =
    read_all_processes opts mem.cmdline (snap.procs mem) := by
  have loop : ∀ (dirs : List ProcDir), dirs ⊆ snap.dirs → ∀ heap, dirs.foldlM (readDir opts mem) heap =
      (dirs.filterMap (ProcDir.proc mem)).foldlM (read_process_info opts mem.cmdline) heap := by
    intro dirs
    induction dirs with
    | nil => exact fun _ _ => rfl
    | cons d dirs ih =>
      intro sub heap
      obtain ⟨here, rest⟩ := List.cons_subset.mp sub
      rw [List.foldlM_cons, readDir_eq snap heap here]
      cases isProc : d.proc mem with
      | none =>
        rw [List.filterMap_cons_none isProc]
        exact ih rest heap
      | some proc =>
        rw [List.filterMap_cons_some isProc, List.foldlM_cons]
        exact congrArg _ (funext fun heap => ih rest heap)
  exact loop snap.dirs (List.Subset.refl _) _

end Reading

/-! ### The table -/

/-- What is kept of a thread. -/
def visible (opts : Options) (thread : Int × Text) : Int × Text :=
  (thread.1, if opts.use_thread_names then thread.2 else [])

/-- What is kept of a process. -/
def Proc.seen (opts : Options) (proc : Proc) : Proc :=
  { proc with threads := (threadsOf opts proc).map (visible opts) }

section Table

variable {opts : Options} {junk : NodeRef → Text} {procs : List Proc}

theorem threadsOf_seen (proc : Proc) :
    threadsOf opts (proc.seen opts) = (threadsOf opts proc).map (visible opts) := by
  rw [threadsOf, Proc.seen, threadsOf]
  split_ifs <;> rfl

theorem loadable_seen {proc : Proc} : Loadable opts (proc.seen opts) ↔ Loadable opts proc := by
  rw [Loadable, Loadable, threadsOf_seen, List.length_map]
  exact Iff.rfl

theorem load_seen (heap : Heap) (proc : Proc) :
    load opts junk heap (proc.seen opts) = load opts junk heap proc := by
  funext r
  cases r with
  | process p =>
    rw [load, load, threadsOf_seen, List.length_map]
    rfl
  | thread p i =>
    have same : ∀ name thread, threadNode opts junk p i name (visible opts thread) =
        threadNode opts junk p i name thread := by
      intro name thread
      rw [threadNode, threadNode, visible]
      dsimp only
      split_ifs <;> rfl
    rw [load, load, threadsOf_seen, List.getElem?_map, Option.elim_map]
    exact if_congr Iff.rfl (congrArg (Option.elim _ _)
      (funext fun thread => congrArg some (same _ thread))) rfl

/-- The nodes are those of what is kept. -/
theorem table_seen : table opts junk (procs.map (Proc.seen opts)) = table opts junk procs := by
  rw [table, table, List.foldl_map]
  exact congrArg (fun f => procs.foldl f _) (funext fun heap => funext fun proc => load_seen heap proc)

theorem table_concat (proc : Proc) :
    table opts junk (procs ++ [proc]) = load opts junk (table opts junk procs) proc := by
  rw [table, List.foldl_append]
  rfl

/-- The node of a process comes from its directory. -/
theorem table_process {p : Nat} {node : ProcessNode}
    (isNode : table opts junk procs (.process p) = some node) :
    ∃ proc ∈ procs, proc.pid = p ∧ node.ppid = proc.ppid := by
  induction procs using List.reverseRecOn with
  | nil => cases isNode
  | append_singleton procs proc ih =>
    rw [table_concat, load] at isNode
    by_cases here : p = proc.pid
    · rw [if_pos here] at isNode
      cases isNode
      exact ⟨proc, List.mem_append_right _ List.mem_cons_self, here.symm, rfl⟩
    · rw [if_neg here] at isNode
      obtain ⟨proc', member, same⟩ := ih isNode
      exact ⟨proc', List.mem_append_left _ member, same⟩

/-- Every process has its node. -/
theorem process_table (distinct : (procs.map Proc.pid).Nodup) {proc : Proc} (member : proc ∈ procs) :
    ∃ node, table opts junk procs (.process proc.pid) = some node ∧ node.ppid = proc.ppid := by
  induction procs using List.reverseRecOn with
  | nil => cases member
  | append_singleton procs last ih =>
    rw [List.map_append, List.nodup_append] at distinct
    obtain ⟨before, -, apart⟩ := distinct
    rw [table_concat, load]
    rcases List.mem_append.mp member with earlier | isLast
    · rw [if_neg (apart _ (List.mem_map_of_mem earlier) _ List.mem_cons_self)]
      exact ih before earlier
    · rw [List.mem_singleton.mp isLast, if_pos rfl]
      exact ⟨_, rfl, rfl⟩

theorem table_bare : ∀ r node, table opts (fun _ => []) procs r = some node → Bare r node := by
  induction procs using List.reverseRecOn with
  | nil =>
    intro r node isNode
    cases isNode
  | append_singleton procs proc ih =>
    intro r node isNode
    rw [table_concat] at isNode
    cases r with
    | process p => exact fun _ _ impossible => by cases impossible
    | thread p i =>
      rw [load] at isNode
      by_cases here : p = proc.pid
      · rw [if_pos here] at isNode
        cases isThread : (threadsOf opts proc)[i]? with
        | none =>
          rw [isThread] at isNode
          exact ih _ _ isNode
        | some thread =>
          rw [isThread] at isNode
          cases isNode
          exact fun _ _ _ => ⟨rfl, rfl, List.length_take_le _ _⟩
      · rw [if_neg here] at isNode
        exact ih _ _ isNode

end Table

/-! ### What was scanned -/

/-- Nothing was found in memory. -/
def emptyMemory : Memory := ⟨fun _ => [], fun _ => 0, fun _ _ => [], fun _ => []⟩

/-- Every `stat` is scanned up to the parent. -/
def Scanned (snap : Snapshot) : Prop :=
  ∀ d ∈ snap.dirs, ∀ line, d.stat = some line → (fscanf_stat line).ppid ≠ none

/-- Where names of threads are shown, every thread has one. -/
def ThreadNames (opts : Options) (snap : Snapshot) : Prop :=
  opts.show_threads = true → opts.use_thread_names = true → ∀ d ∈ snap.dirs, d.stat ≠ none →
    ∀ thread ∈ d.others, fscanf_thread thread.2 ≠ none

section Scanning

variable {opts : Options} {mem : Memory} {snap : Snapshot}

/-- The parent is scanned last. -/
theorem fscanf_stat_name {line : Text} (scanned : (fscanf_stat line).ppid ≠ none) :
    (fscanf_stat line).name ≠ none := by
  rw [fscanf_stat] at scanned ⊢
  split at scanned
  · exact absurd rfl scanned
  · split at scanned
    · exact absurd rfl scanned
    · split <;> exact Option.some_ne_none _

/-- What is kept of the threads does not depend on the memory. -/
theorem threads_visible (names : ThreadNames opts snap) {d : ProcDir} (member : d ∈ snap.dirs)
    (isStat : d.stat ≠ none) (threads : opts.show_threads = true) :
    (d.threads mem).map (visible opts) = (d.threads emptyMemory).map (visible opts) := by
  refine List.ext_getElem? fun i => ?_
  rw [List.getElem?_map, List.getElem?_map, ProcDir.threads, ProcDir.threads, List.getElem?_mapIdx,
    List.getElem?_mapIdx]
  cases isThread : d.others[i]? with
  | none => rfl
  | some thread =>
    simp only [Option.map_some, visible]
    by_cases shows : opts.use_thread_names = true
    · obtain ⟨name, isName⟩ := Option.ne_none_iff_exists'.mp
        (names threads shows d member isStat _ (List.mem_of_getElem? isThread))
      rw [isName, Option.getD_some, Option.getD_some]
    · rw [if_neg shows, if_neg shows]

/-- What is kept of the processes does not depend on the memory. -/
theorem procs_seen (scanned : Scanned snap) (names : ThreadNames opts snap) :
    (snap.procs mem).map (Proc.seen opts) = (snap.procs emptyMemory).map (Proc.seen opts) := by
  rw [Snapshot.procs, Snapshot.procs, List.map_filterMap, List.map_filterMap]
  refine List.filterMap_congr fun d member => ?_
  rw [ProcDir.proc, ProcDir.proc]
  cases isStat : d.stat with
  | none => rfl
  | some line =>
    have isParent := scanned d member line isStat
    obtain ⟨ppid, isPpid⟩ := Option.ne_none_iff_exists'.mp isParent
    obtain ⟨name, isName⟩ := Option.ne_none_iff_exists'.mp (fscanf_stat_name isParent)
    rw [Option.map_some, Option.map_some, Option.map_some, Option.map_some, isPpid, isName]
    refine congrArg some ?_
    rw [Proc.seen, Proc.seen, threadsOf, threadsOf]
    dsimp only [Option.getD_some]
    by_cases threads : opts.show_threads = true
    · rw [if_pos threads, if_pos threads, threads_visible names member
        (by rw [isStat]; exact Option.some_ne_none _) threads]
    · rw [if_neg threads, if_neg threads]

theorem procs_distinct (snap : Snapshot) : ((snap.procs mem).map Proc.pid).Nodup := by
  refine List.Nodup.sublist ?_ snap.distinct
  rw [Snapshot.procs]
  induction snap.dirs with
  | nil => exact List.Sublist.refl _
  | cons d dirs ih =>
    rw [List.map_cons]
    cases isProc : d.proc mem with
    | none =>
      rw [List.filterMap_cons_none isProc]
      exact ih.cons _
    | some proc =>
      obtain ⟨line, -, rfl⟩ := Option.map_eq_some_iff.mp isProc
      rw [List.filterMap_cons_some isProc, List.map_cons]
      exact ih.cons_cons _

/-- The table for a memory is the touched table. -/
theorem table_memory (scanned : Scanned snap) (names : ThreadNames opts snap) :
    table opts mem.cmdline (snap.procs mem) =
      touched mem.cmdline (table opts (fun _ => []) (snap.procs emptyMemory)) := by
  rw [← table_touched, ← table_seen, procs_seen scanned names, table_seen]

theorem loadable_memory (scanned : Scanned snap) (names : ThreadNames opts snap) :
    (∀ proc ∈ snap.procs mem, Loadable opts proc) ↔
      ∀ proc ∈ snap.procs emptyMemory, Loadable opts proc := by
  have all : ∀ procs : List Proc, (∀ proc ∈ procs.map (Proc.seen opts), Loadable opts proc) ↔
      ∀ proc ∈ procs, Loadable opts proc := by
    intro procs
    rw [List.forall_mem_map]
    exact forall₂_congr fun proc _ => loadable_seen
  rw [← all (snap.procs mem), procs_seen scanned names, all]

theorem bounded_touched {junk : NodeRef → Text} {heap : Heap} :
    Bounded (touched junk heap) ↔ Bounded heap := by
  have same : childOf (touched junk heap) = childOf heap := by
    funext p i
    rw [childOf, childOf, touched_process]
  constructor
  · intro bounded
    refine ⟨fun {i node} isNode => bounded.parents ((touched_process i).trans isNode),
      fun {p node} isNode => ?_⟩
    rw [← same]
    exact bounded.children ((touched_process p).trans isNode)
  · intro bounded
    refine ⟨fun {i node} isNode => bounded.parents ((touched_process i).symm.trans isNode),
      fun {p node} isNode => ?_⟩
    rw [same]
    exact bounded.children ((touched_process p).symm.trans isNode)

end Scanning

/-! ### The output -/

section Output

variable {opts : Options} {qsort : (NodeRef → NodeRef → Int) → List NodeRef → List NodeRef}
  {mem : Memory} {snap : Snapshot}

/-- The tree of a snapshot. -/
def Snapshot.tree (opts : Options) (mem : Memory)
    (qsort : (NodeRef → NodeRef → Int) → List NodeRef → List NodeRef) (snap : Snapshot) : Heap :=
  treeOf opts qsort (table opts mem.cmdline (snap.procs mem))

/-- There is room for the processes. -/
structure Room (opts : Options) (mem : Memory) (snap : Snapshot) : Prop where
  loadable : ∀ proc ∈ snap.procs mem, Loadable opts proc
  bounded : Bounded (table opts mem.cmdline (snap.procs mem))

/-- Where there is room, the tree is read and built. -/
theorem Room.built (room : Room opts mem snap) (permutes : ∀ compare l, (qsort compare l).Perm l) :
    readDirs opts mem snap.dirs = .ok (table opts mem.cmdline (snap.procs mem)) ∧
      Fresh (table opts mem.cmdline (snap.procs mem)) ∧
      build_process_tree qsort opts (table opts mem.cmdline (snap.procs mem)) =
        .ok (snap.tree opts mem qsort) := by
  have read : read_all_processes opts mem.cmdline (snap.procs mem) = .ok _ :=
    read_all_iff.mpr ⟨room.loadable, rfl⟩
  have fresh := read_all_processes_fresh read
  exact ⟨(read_eq snap).trans read, fresh,
    (build_iff permutes fresh (table_children room.loadable)).mpr ⟨room.bounded, rfl⟩⟩

/-- **The output of the program.** -/
theorem pstree_iff (permutes : ∀ compare l, (qsort compare l).Perm l) {out : Text} :
    pstree opts mem qsort snap = .ok (some out) ↔
      Room opts mem snap ∧ shown opts (snap.tree opts mem qsort) = some out := by
  rw [pstree]
  constructor
  · intro run
    obtain ⟨heap, read, run⟩ := bind_eq_ok.mp run
    obtain ⟨tree, built, run⟩ := bind_eq_ok.mp run
    rw [read_eq] at read
    have fresh := read_all_processes_fresh read
    obtain ⟨loadable, rfl⟩ := read_all_iff.mp read
    obtain ⟨bounded, rfl⟩ := (build_iff permutes fresh (table_children loadable)).mp built
    exact ⟨⟨loadable, bounded⟩, Except.ok.inj run⟩
  · rintro ⟨room, shows⟩
    obtain ⟨read, -, built⟩ := @room.built opts qsort mem snap permutes
    refine bind_eq_ok.mpr ⟨_, read, bind_eq_ok.mpr ⟨_, built, ?_⟩⟩
    exact congrArg Except.ok shows

/-- The program ends: no process is above process 1. -/
theorem shown_ends (permutes : ∀ compare l, (qsort compare l).Perm l) (scanned : Scanned snap)
    (room : Room opts mem snap) : ∃ out, shown opts (snap.tree opts mem qsort) = some out := by
  obtain ⟨-, fresh, built⟩ := @room.built opts qsort mem snap permutes
  obtain ⟨same, linked⟩ := build_linked permutes fresh built
  rw [shown]
  cases isInit : snap.tree opts mem qsort initRef with
  | none => exact ⟨[], rfl⟩
  | some init =>
    obtain ⟨middle, isMiddle, -⟩ := Option.map_eq_some_iff.mp isInit
    obtain ⟨old, isOld, -⟩ := Option.map_eq_some_iff.mp isMiddle
    obtain ⟨proc, member, isOne, isParent⟩ := table_process isOld
    have root : old.ppid ≤ 0 := by
      obtain ⟨d, isDir, isProc⟩ := List.mem_filterMap.mp member
      obtain ⟨line, isStat, rfl⟩ := Option.map_eq_some_iff.mp isProc
      obtain ⟨ppid, isPpid⟩ := Option.ne_none_iff_exists'.mp (scanned d isDir line isStat)
      rw [isParent]
      dsimp only
      rw [isPpid]
      exact snap.init d isDir isOne line ppid isStat isPpid
    have within := within_top linked (acyclic_of_root fresh same isOld root)
    obtain ⟨after, run⟩ := @prints_within opts _ (fun _ _ => linked.known) _ _ _ within isInit (-1) true
      true ⟨fun _ => false, []⟩
    refine ⟨display after.lines, ?_⟩
    dsimp only
    rw [run]
    rfl

/-- The touched tree is printed with the same lines. -/
theorem shown_touched {junk : NodeRef → Text} {out : Text}
    (shows : shown opts (snap.tree opts emptyMemory qsort) = some out) :
    ∃ lines lines', out = display lines ∧
      shown opts (touched junk (snap.tree opts emptyMemory qsort)) = some (display lines') ∧
      List.Forall₂ (SameLine opts junk) lines lines' ∧
      ∀ r, (∃ line ∈ lines, line.node = r) ↔
        ∃ node, Displayed opts (snap.tree opts emptyMemory qsort) r node := by
  have bare : ∀ r node, snap.tree opts emptyMemory qsort r = some node → Bare r node := by
    intro r node isNode
    cases r with
    | process p => exact fun _ _ impossible => by cases impossible
    | thread p i => exact table_bare _ _ isNode
  rw [shown] at shows ⊢
  rw [show touched junk (snap.tree opts emptyMemory qsort) initRef = _ from touched_process 1]
  cases isInit : snap.tree opts emptyMemory qsort initRef with
  | none =>
    rw [isInit] at shows
    cases shows
    refine ⟨[], [], rfl, rfl, List.Forall₂.nil, fun r => iff_of_false ?_ ?_⟩
    · rintro ⟨line, impossible, -⟩
      cases impossible
    · rintro ⟨node, displayed⟩
      have top : ∃ init, snap.tree opts emptyMemory qsort initRef = some init := by
        induction displayed with
        | root present => exact ⟨_, present⟩
        | child _ _ _ ih => exact ih
      obtain ⟨init, present⟩ := top
      rw [isInit] at present
      cases present
  | some init =>
    rw [isInit] at shows
    obtain ⟨after, run, rfl⟩ := Option.map_eq_some_iff.mp shows
    obtain ⟨after', run', -, lines⟩ := @print_touched opts junk _ bare _ _ _ _ _ _ _
      ⟨fun _ => false, []⟩ _ (bare _ _ isInit) rfl List.Forall₂.nil run
    refine ⟨after.lines, after'.lines, rfl, ?_, lines, fun r => mem_lines_iff isInit run⟩
    exact congrArg (Option.map _) run'

end Output

/-! ### The same output for every memory -/

/-- The output is the same for every memory. -/
def Determined (opts : Options) (qsort : (NodeRef → NodeRef → Int) → List NodeRef → List NodeRef)
    (snap : Snapshot) : Prop :=
  ∃ out, ∀ mem, pstree opts mem qsort snap = .ok (some out)

/-- Everything is scanned, there is room for it, and no thread is printed. -/
structure Settled (opts : Options) (qsort : (NodeRef → NodeRef → Int) → List NodeRef → List NodeRef)
    (snap : Snapshot) : Prop where
  scanned : Scanned snap
  names : ThreadNames opts snap
  room : Room opts emptyMemory snap
  processes : ∀ r node, Displayed opts (snap.tree opts emptyMemory qsort) r node → ∃ p, r = .process p

section Memories

variable {opts : Options} {qsort : (NodeRef → NodeRef → Int) → List NodeRef → List NodeRef}
  {snap : Snapshot}

theorem tree_memory (scanned : Scanned snap) (names : ThreadNames opts snap) (mem : Memory) :
    snap.tree opts mem qsort = touched mem.cmdline (snap.tree opts emptyMemory qsort) := by
  rw [Snapshot.tree, table_memory scanned names, treeOf_touched]
  rfl

theorem room_memory (scanned : Scanned snap) (names : ThreadNames opts snap) (mem : Memory) :
    Room opts mem snap ↔ Room opts emptyMemory snap := by
  have bounded : Bounded (table opts mem.cmdline (snap.procs mem)) ↔
      Bounded (table opts emptyMemory.cmdline (snap.procs emptyMemory)) := by
    rw [table_memory scanned names]
    exact bounded_touched
  exact ⟨fun room => ⟨(loadable_memory scanned names).mp room.loadable, bounded.mp room.bounded⟩,
    fun room => ⟨(loadable_memory scanned names).mpr room.loadable, bounded.mpr room.bounded⟩⟩

/-- A parent that is not scanned is any number, also one outside of `process_tree`. -/
theorem scanned_of_determined (permutes : ∀ compare l, (qsort compare l).Perm l)
    (determined : Determined opts qsort snap) : Scanned snap := by
  obtain ⟨out, same⟩ := determined
  intro d member line isStat unscanned
  let mem : Memory := { emptyMemory with ppid := fun _ => MAX_PROCESSES }
  obtain ⟨room, -⟩ := (pstree_iff permutes).mp (same mem)
  have isProc : d.proc mem = some _ := congrArg (Option.map _) isStat
  obtain ⟨node, isNode, isParent⟩ := @process_table opts mem.cmdline _ (procs_distinct snap) _
    (List.mem_filterMap.mpr ⟨d, member, isProc⟩)
  have inside := room.bounded.parents isNode
  rw [isParent] at inside
  dsimp only at inside
  rw [unscanned] at inside
  exact absurd inside (lt_irrefl _)

/-- A longer command line of a thread that is printed makes the output longer. -/
theorem junk_shown (permutes : ∀ compare l, (qsort compare l).Perm l) (scanned : Scanned snap)
    (names : ThreadNames opts snap) (room : Room opts emptyMemory snap) {p i : Nat} {node : ProcessNode}
    (displayed : Displayed opts (snap.tree opts emptyMemory qsort) (.thread p i) node) :
    pstree opts emptyMemory qsort snap ≠
      pstree opts { emptyMemory with cmdline := fun _ => longest } qsort snap := by
  intro same
  obtain ⟨out, shows⟩ := @shown_ends opts qsort emptyMemory snap permutes scanned room
  rw [(pstree_iff permutes).mpr ⟨room, shows⟩] at same
  obtain ⟨-, shows'⟩ := (pstree_iff permutes).mp same.symm
  rw [tree_memory scanned names] at shows'
  obtain ⟨lines, lines', rfl, shows'', twins, isLine⟩ := @shown_touched _ _ _ (fun _ => longest) _ shows
  rw [shows''] at shows'
  obtain ⟨line, member, isThread⟩ := (isLine _).mpr ⟨node, displayed⟩
  have longer := (display_less twins).2 ⟨line, member, p, i, isThread⟩
  rw [Option.some.inj shows'] at longer
  exact absurd longer (lt_irrefl _)

/-- **When the output does not depend on the memory**: it suffices that everything is scanned, that there is
room, and that no thread is printed. Where the threads have names, this is necessary. -/
theorem determined_iff (permutes : ∀ compare l, (qsort compare l).Perm l) :
    (Settled opts qsort snap → Determined opts qsort snap) ∧
      (ThreadNames opts snap → Determined opts qsort snap → Settled opts qsort snap) := by
  constructor
  · intro settled
    obtain ⟨out, shows⟩ := shown_ends permutes settled.scanned settled.room
    refine ⟨out, fun mem => (pstree_iff permutes).mpr
      ⟨(room_memory settled.scanned settled.names mem).mpr settled.room, ?_⟩⟩
    obtain ⟨lines, lines', rfl, shows', same, displayed⟩ := @shown_touched _ _ _ mem.cmdline _ shows
    rw [tree_memory settled.scanned settled.names, shows', display_same same]
    intro line member
    obtain ⟨node, isDisplayed⟩ := (displayed line.node).mp ⟨line, member, rfl⟩
    exact settled.processes _ node isDisplayed
  · intro names determined
    have scanned := scanned_of_determined permutes determined
    obtain ⟨out, same⟩ := determined
    obtain ⟨room, -⟩ := (pstree_iff permutes).mp (same emptyMemory)
    refine ⟨scanned, names, room, fun r node isDisplayed => ?_⟩
    cases r with
    | process p => exact ⟨p, rfl⟩
    | thread p i =>
      exact absurd ((same _).trans (same _).symm) (junk_shown permutes scanned names room isDisplayed)

end Memories

theorem fscanf_stat_init :
    fscanf_stat (statLine 1 [105] 83 0 []) = ⟨some 1, some [40, 105, 41], some 0⟩ := by decide +kernel

/-- "i", the only process, with one more thread. -/
def threaded : Snapshot where
  dirs := [⟨1, some (statLine 1 [105] 83 0 []), [], [(1, none), (2, some (statLine 2 [105] 83 0 []))]⟩]
  distinct := List.nodup_singleton 1
  own d member line isStat := by
    rw [List.mem_singleton.mp member] at isStat
    cases isStat
    rw [fscanf_stat_init, List.mem_singleton.mp member]
    rfl
  init d member _ line ppid isStat isPpid := by
    rw [List.mem_singleton.mp member] at isStat
    cases isStat
    rw [fscanf_stat_init] at isPpid
    cases isPpid
    exact le_rfl

theorem threaded_procs :
    threaded.procs emptyMemory = [⟨1, 0, [40, 105, 41], [], [(2, [40, 105, 41])]⟩] := by
  have thread : fscanf_thread (statLine 2 [105] 83 0 []) = some [40, 105, 41] := by decide +kernel
  show [({ pid := 1, ppid := (fscanf_stat (statLine 1 [105] 83 0 [])).ppid.getD 0
           name := (fscanf_stat (statLine 1 [105] 83 0 [])).name.getD [], cmdline := []
           threads := [(2, (fscanf_thread (statLine 2 [105] 83 0 [])).getD [])] } : Proc)] = _
  rw [fscanf_stat_init, thread]
  rfl

theorem threaded_scanned : Scanned threaded := by
  intro d member line isStat
  rw [List.mem_singleton.mp member] at isStat
  cases isStat
  rw [fscanf_stat_init]
  exact Option.some_ne_none _

section Threaded

variable {opts : Options} {p : Nat} {node : ProcessNode}

/-- The threads that are read. -/
def threadedChildren (opts : Options) : List NodeRef := if opts.show_threads then [.thread 1 0] else []

theorem threaded_process
    (isNode : table opts (fun _ => []) (threaded.procs emptyMemory) (.process p) = some node) :
    p = 1 ∧ node.ppid = 0 ∧ node.children = threadedChildren opts := by
  rw [threaded_procs] at isNode
  have only : table opts (fun _ => []) [⟨1, 0, [40, 105, 41], [], [(2, [40, 105, 41])]⟩] (.process p) =
      if p = 1 then some _ else none := rfl
  rw [only] at isNode
  by_cases here : p = 1
  · subst here
    rw [if_pos rfl] at isNode
    cases isNode
    refine ⟨rfl, rfl, ?_⟩
    dsimp only
    rw [threadsOf, threadedChildren]
    split_ifs <;> rfl
  · rw [if_neg here] at isNode
    cases isNode

theorem threaded_childless (p i : Nat) :
    childOf (table opts (fun _ => []) (threaded.procs emptyMemory)) p i = false := by
  rw [childOf]
  cases isNode : table opts (fun _ => []) (threaded.procs emptyMemory) (.process i) with
  | none => rfl
  | some node =>
    rw [Option.elim_some, (threaded_process isNode).2.1]
    rfl

theorem threaded_room : Room opts emptyMemory threaded := by
  have few : (threadedChildren opts).length ≤ 1 := by
    rw [threadedChildren]
    split_ifs <;> decide
  refine ⟨?_, ⟨fun isNode => ?_, fun {p node} isNode => ?_⟩⟩
  · rw [threaded_procs]
    intro proc member
    rw [List.mem_singleton.mp member, Loadable, threadsOf]
    split_ifs <;> decide
  · rw [(threaded_process isNode).2.1]
    exact Int.natCast_pos.mpr (Nat.succ_pos _)
  · have none : (List.range MAX_PROCESSES).countP
        (childOf (table opts emptyMemory.cmdline (threaded.procs emptyMemory)) p) = 0 :=
      List.countP_eq_zero.mpr fun i _ => ne_true_of_eq_false (threaded_childless p i)
    rw [(threaded_process isNode).2.2, none]
    exact le_trans few (by decide)

theorem threaded_tree : ∃ node, threaded.tree opts emptyMemory insertion initRef = some node ∧
    node.children = threadedChildren opts := by
  have few : ¬1 < (threadedChildren opts).length := by
    rw [threadedChildren]
    split_ifs <;> decide
  have none : (List.range MAX_PROCESSES).filter
      (childOf (table opts emptyMemory.cmdline (threaded.procs emptyMemory)) 1) = [] :=
    List.filter_eq_nil_iff.mpr fun i _ => ne_true_of_eq_false (threaded_childless 1 i)
  obtain ⟨node, isNode, -⟩ := @process_table opts emptyMemory.cmdline _ (procs_distinct threaded)
    ⟨1, 0, [40, 105, 41], [], [(2, [40, 105, 41])]⟩ (by rw [threaded_procs]; exact List.mem_cons_self)
  have children := (threaded_process isNode).2.2
  rw [Snapshot.tree, treeOf, attached, isNode, none, List.map_nil]
  refine ⟨_, rfl, ?_⟩
  dsimp only
  rw [List.append_nil, if_neg (by rw [children]; exact few), children]

end Threaded

/-- Without threads the output is determined. -/
theorem determined_threadless :
    Determined { startOptions with show_threads := false } insertion threaded := by
  refine (determined_iff insertion_perm).1 ⟨threaded_scanned, fun impossible => ?_, threaded_room,
    fun r node displayed => ?_⟩
  · cases impossible
  · have root : r = initRef ∧ node.children = [] := by
      induction displayed with
      | root present =>
        obtain ⟨init, isInit, children⟩ :=
          @threaded_tree { startOptions with show_threads := false }
        rw [present] at isInit
        cases isInit
        exact ⟨rfl, children⟩
      | child _ isEntries member ih =>
        rw [entries, ih.2] at isEntries
        cases isEntries
        cases member
    exact ⟨1, root.1⟩

/-- The process named "a b", and process 1. -/
def spaced : Snapshot where
  dirs := [⟨1, some (statLine 1 [105] 83 0 []), [], []⟩,
    ⟨7, some (statLine 7 [97, 32, 98] 83 1 [48]), [], []⟩]
  distinct := by decide
  own d member line isStat := by
    rcases List.mem_cons.mp member with rfl | last
    · cases isStat
      decide +kernel
    · rw [List.mem_singleton.mp last] at isStat ⊢
      cases isStat
      decide +kernel
  init d member isOne line ppid isStat isPpid := by
    rcases List.mem_cons.mp member with rfl | last
    · cases isStat
      rw [fscanf_stat_init] at isPpid
      cases isPpid
      exact le_rfl
    · rw [List.mem_singleton.mp last] at isOne
      cases isOne

/-- With a thread, two memories give two outputs; and a process named "a b" has any parent. -/
theorem pstree_shows_memory :
    pstree startOptions emptyMemory insertion threaded ≠
      pstree startOptions { emptyMemory with cmdline := fun _ => longest } insertion threaded ∧
    ¬Determined startOptions insertion spaced := by
  constructor
  · have names : ThreadNames startOptions threaded := fun _ impossible => by cases impossible
    obtain ⟨init, isInit, children⟩ := @threaded_tree startOptions
    have isEntries : ∃ e, entries startOptions (threaded.tree startOptions emptyMemory insertion) init =
        some [e] ∧ e.child = .thread 1 0 := by
      obtain ⟨thread, isThread⟩ : ∃ thread,
          threaded.tree startOptions emptyMemory insertion (.thread 1 0) = some thread := by
        rw [Snapshot.tree, threaded_procs]
        exact ⟨_, rfl⟩
      have once : count_same_name_children (threaded.tree startOptions emptyMemory insertion) init 0
          thread.name ≤ 1 := by
        rw [count_same_name_children, children]
        exact List.countP_le_length
      refine ⟨⟨.thread 1 0, thread, true, true⟩, ?_, rfl⟩
      rw [entries, children]
      show entriesFrom startOptions _ init 1 0 = _
      rw [entriesFrom, children]
      show (threaded.tree startOptions emptyMemory insertion (.thread 1 0) >>= fun child_node => _) = _
      rw [isThread]
      exact if_neg (Nat.not_lt.mpr once)
    obtain ⟨e, isEntries, isThread⟩ := isEntries
    have displayed := Displayed.child (.root isInit) isEntries List.mem_cons_self
    rw [isThread] at displayed
    exact junk_shown insertion_perm threaded_scanned names threaded_room displayed
  · intro determined
    refine scanned_of_determined insertion_perm determined _ (.tail _ List.mem_cons_self) _ rfl ?_
    decide +kernel

end Csc3150.Pstree
