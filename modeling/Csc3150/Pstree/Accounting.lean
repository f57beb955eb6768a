/-
**What the lines of `pstree` stand for.**

A line stands for its node, or for the group of childless siblings that its round of the loop passes. In
order, the groups must be the nodes below process 1, each once.

* `covers_walk` — the lines of a subtree stand for its nodes exactly when the children of every node in
  it are `Fair`;
* `print_walk` — `print_process_tree` ends and prints these lines;
* `pstree_accounts` — both, for the trees that `build_process_tree` builds;
* `pstree_hides_subtree` — a tree that is not fair.
-/

import Csc3150.Pstree.Building
import Mathlib.Data.List.Sort
import Mathlib.Data.List.TakeWhile

namespace Csc3150.Pstree

/-! ### Lines and nodes -/

/-- The text does not say "k*[name]", unless k is 1. -/
def Plain (name : Text) : Prop := ∀ k group, name = compactName k group → k = 1

/-- A node and the name printed for it. -/
abbrev Mark := NodeRef × Text

/-- The nodes that a line stands for: the node itself; or at least two childless siblings of one name,
the last of which is the node, where the line says how many, and their name. -/
def StandsFor (tree : Heap) (group : List NodeRef) (mark : Mark) : Prop :=
  group.getLast? = some mark.1 ∧ (group.length = 1 ∧ Plain mark.2 ∨
    1 < group.length ∧ (∃ p, ∀ r ∈ group, IsChild tree p r) ∧
      ∃ name, mark.2 = compactName group.length name ∧ ∀ r ∈ group, leafNamed tree name r = true)

/-- The lines stand for these nodes, in order. -/
def Covers (tree : Heap) (marks : List Mark) (nodes : List NodeRef) : Prop :=
  ∃ groups, List.Forall₂ (StandsFor tree) groups marks ∧ groups.flatten = nodes

section Nodes

variable (tree : Heap)

def nameOf (r : NodeRef) : Text := (tree r).elim [] (·.name)

def childrenOf (r : NodeRef) : List NodeRef := (tree r).elim [] (·.children)

def shownOf (r : NodeRef) : Text := (tree r).elim [] shownName

/-- The name shown for the last node of a group. -/
def shownGroup (k : Nat) (r : NodeRef) : Text := (tree r).elim [] fun node => shownName (node.rename k)

/-! ### The condition -/

/-- The name of a group is not cut off, and not replaced by a command line. -/
def Readable (node : ProcessNode) (k : Nat) : Prop :=
  if node.cmdline = [] then (compactName k node.name).length < MAX_NAME_LEN + 2
  else snprintf 260 (commandName node.cmdline) = compactName k node.name

/-- Childless siblings of one name stand together; behind a node with children stands at most one
childless sibling of its name. -/
def Together : List NodeRef → Prop
  | [] => True
  | r :: rest => Together rest ∧
    if childrenOf tree r = [] then
      ∀ x ∈ rest.dropWhile (leafNamed tree (nameOf tree r)), leafNamed tree (nameOf tree r) x = false
    else rest.countP (leafNamed tree (nameOf tree r)) ≤ 1

/-- Children that the loop of `print_process_tree` accounts for. -/
structure Fair (cs : List NodeRef) : Prop where
  together : Together tree cs
  readable : ∀ name r node, 1 < cs.countP (leafNamed tree name) →
    (cs.filter (leafNamed tree name)).getLast? = some r → tree r = some node →
    Readable node (cs.countP (leafNamed tree name))
  plain : ∀ r ∈ cs, childrenOf tree r ≠ [] ∨ cs.countP (leafNamed tree (nameOf tree r)) = 1 →
    Plain (shownOf tree r)

end Nodes

section Leaves

variable {tree : Heap} {r : NodeRef} {name name' : Text}

theorem leafNamed_iff : leafNamed tree name r = true ↔
    tree r ≠ none ∧ nameOf tree r = name ∧ childrenOf tree r = [] := by
  rw [leafNamed, nameOf, childrenOf]
  cases tree r with
  | none => exact iff_of_false Bool.false_ne_true fun both => both.1 rfl
  | some node =>
    rw [Option.elim_some, Option.elim_some, Option.elim_some, Bool.and_eq_true, decide_eq_true_iff,
      decide_eq_true_iff, List.length_eq_zero_iff]
    exact ⟨fun both => ⟨Option.some_ne_none _, both⟩, And.right⟩

theorem leafNamed_self (known : tree r ≠ none) :
    leafNamed tree (nameOf tree r) r = true ↔ childrenOf tree r = [] :=
  leafNamed_iff.trans ⟨fun both => both.2.2, fun leaf => ⟨known, rfl, leaf⟩⟩

/-- A node has one name. -/
theorem leafNamed_unique (first : leafNamed tree name r = true) (second : leafNamed tree name' r = true) :
    name = name' := (leafNamed_iff.mp first).2.1.symm.trans (leafNamed_iff.mp second).2.1

theorem preorder_leaf (n : Nat) (leaf : childrenOf tree r = []) : preorder tree (n + 1) r = [r] := by
  rw [preorder, show (tree r).elim [] (·.children) = [] from leaf]
  rfl

theorem snprintf_twice (m n : Nat) (s : Text) :
    snprintf m (snprintf n s) = s.take (min (m - 1) (n - 1)) := List.take_take

theorem shownName_rename (node : ProcessNode) (k : Nat) :
    shownName (node.rename k) = compactName k node.name ↔ Readable node k := by
  rw [Readable, shownName, ProcessNode.rename]
  by_cases empty : node.cmdline = []
  · rw [if_pos empty, if_neg (not_not.mpr empty), snprintf_twice, snprintf, List.take_take,
      List.take_eq_self_iff]
    exact Nat.lt_succ_iff.symm
  · rw [if_neg empty, if_pos empty]

/-- The name of a group can be read when its last node says so. -/
theorem shownGroup_iff {k : Nat} (leaf : leafNamed tree name r = true) :
    shownGroup tree k r = compactName k name ↔ ∀ node, tree r = some node → Readable node k := by
  obtain ⟨known, isName, -⟩ := leafNamed_iff.mp leaf
  obtain ⟨node, isNode⟩ := Option.ne_none_iff_exists'.mp known
  rw [nameOf, isNode, Option.elim_some] at isName
  rw [shownGroup, isNode, Option.elim_some, ← isName, shownName_rename]
  exact ⟨fun readable node' same => Option.some.inj same ▸ readable, fun all => all node rfl⟩

end Leaves

/-! ### One round of the loop -/

section Rounds

variable {tree : Heap} {r : NodeRef} {rest g t : List NodeRef} {name : Text}

/-- When only the elements in front satisfy a predicate, they can be counted. -/
theorem take_countP {α : Type} {p : α → Bool} {l : List α} (behind : ∀ x ∈ l.dropWhile p, p x = false) :
    l.take (l.countP p) = l.takeWhile p := by
  induction l with
  | nil => rfl
  | cons x l ih =>
    by_cases holds : p x = true
    · rw [List.dropWhile_cons_of_pos holds] at behind
      rw [List.countP_cons_of_pos holds, List.takeWhile_cons_of_pos holds, List.take_succ_cons, ih behind]
    · rw [List.dropWhile_cons_of_neg holds] at behind
      have none : (x :: l).countP p = 0 :=
        List.countP_eq_zero.mpr fun y member => Bool.eq_false_iff.mp (behind y member)
      rw [none, List.takeWhile_cons_of_neg holds, List.take_zero]

/-- A group of childless siblings in front. -/
theorem together_append (all : ∀ x ∈ g, leafNamed tree name x = true)
    (none : ∀ x ∈ t, leafNamed tree name x = false) : Together tree (g ++ t) ↔ Together tree t := by
  induction g with
  | nil => exact Iff.rfl
  | cons r g ih =>
    obtain ⟨-, isName, leaf⟩ := leafNamed_iff.mp (all r List.mem_cons_self)
    rw [List.cons_append, Together, ih fun x member => all x (List.mem_cons_of_mem _ member), if_pos leaf,
      isName]
    refine and_iff_left fun x member => ?_
    have behind : (g ++ t).dropWhile (leafNamed tree name) = t.dropWhile (leafNamed tree name) :=
      List.dropWhile_append_of_pos fun x member => all x (List.mem_cons_of_mem _ member)
    rw [behind] at member
    exact none x ((List.dropWhile_suffix _).subset member)

/-- The group of the first child, when there are several childless ones of its name. -/
theorem Together.group (together : Together tree (r :: rest)) (known : tree r ≠ none)
    (several : 1 < (r :: rest).countP (leafNamed tree (nameOf tree r))) :
    ∀ x ∈ (r :: rest).take ((r :: rest).countP (leafNamed tree (nameOf tree r))),
      leafNamed tree (nameOf tree r) x = true := by
  obtain ⟨-, front⟩ := together
  by_cases leaf : childrenOf tree r = []
  · have isLeaf := (leafNamed_self known).mpr leaf
    rw [if_pos leaf] at front
    rw [List.countP_cons_of_pos isLeaf, List.take_succ_cons, take_countP front]
    intro x member
    rcases List.mem_cons.mp member with rfl | behind
    · exact isLeaf
    · exact List.mem_takeWhile_imp behind
  · rw [if_neg leaf] at front
    rw [List.countP_cons_of_neg (mt (leafNamed_self known).mp leaf)] at several
    omega

/-- A child that is printed alone. -/
theorem fair_cons (known : ∀ x ∈ r :: rest, tree x ≠ none)
    (single : (r :: rest).countP (leafNamed tree (nameOf tree r)) ≤ 1) :
    Fair tree (r :: rest) ↔ Plain (shownOf tree r) ∧ Fair tree rest := by
  have isLeaf : childrenOf tree r = [] ↔ leafNamed tree (nameOf tree r) r = true :=
    (leafNamed_self (known r List.mem_cons_self)).symm
  have other : ∀ {name}, 0 < rest.countP (leafNamed tree name) → leafNamed tree name r ≠ true := by
    intro name some leaf
    obtain ⟨-, isName, -⟩ := leafNamed_iff.mp leaf
    rw [isName, List.countP_cons_of_pos leaf] at single
    omega
  constructor
  · intro fair
    refine ⟨fair.plain r List.mem_cons_self ?_, fair.together.1,
      fun name x node several isLast isNode => ?_,
      fun x member alone => fair.plain x (List.mem_cons_of_mem _ member) ?_⟩
    · by_cases leaf : childrenOf tree r = []
      · rw [List.countP_cons_of_pos (isLeaf.mp leaf)] at single ⊢
        exact Or.inr (by omega)
      · exact Or.inl leaf
    · have notFirst := other (lt_trans Nat.zero_lt_one several)
      have readable := fair.readable name x node
      rw [List.countP_cons_of_neg notFirst, List.filter_cons_of_neg notFirst] at readable
      exact readable several isLast isNode
    · refine alone.imp id fun one => ?_
      rw [List.countP_cons_of_neg (other (by rw [one]; exact Nat.zero_lt_one)), one]
  · rintro ⟨plain, fair⟩
    refine ⟨⟨fair.together, ?_⟩, fun name x node several isLast isNode => ?_, fun x member alone => ?_⟩
    · split_ifs with leaf
      · rw [List.countP_cons_of_pos (isLeaf.mp leaf)] at single
        have zero : rest.countP (leafNamed tree (nameOf tree r)) = 0 := by omega
        have none := List.countP_eq_zero.mp zero
        exact fun x member => Bool.eq_false_of_not_eq_true
          (none x ((List.dropWhile_suffix _).subset member))
      · rwa [List.countP_cons_of_neg (mt isLeaf.mpr leaf)] at single
    · have notFirst : leafNamed tree name r ≠ true := by
        intro leaf
        obtain ⟨-, isName, -⟩ := leafNamed_iff.mp leaf
        rw [isName] at single
        omega
      rw [List.countP_cons_of_neg notFirst] at several ⊢
      rw [List.filter_cons_of_neg notFirst] at isLast
      exact fair.readable name x node several isLast isNode
    · rcases List.mem_cons.mp member with rfl | behind
      · exact plain
      · refine fair.plain x behind ?_
        by_cases leaf : childrenOf tree x = []
        · have counted : 0 < rest.countP (leafNamed tree (nameOf tree x)) :=
            List.countP_pos_iff.mpr ⟨x, behind, (leafNamed_self (known x member)).mpr leaf⟩
          rw [List.countP_cons_of_neg (other counted)] at alone
          exact alone
        · exact Or.inl leaf

/-- A group of childless siblings in front, and the group's last node. -/
theorem fair_append {last : NodeRef} (all : ∀ x ∈ g, leafNamed tree name x = true)
    (none : ∀ x ∈ t, leafNamed tree name x = false) (several : 1 < g.length)
    (isLast : g.getLast? = some last) :
    Fair tree (g ++ t) ↔ shownGroup tree g.length last = compactName g.length name ∧ Fair tree t := by
  have count : (g ++ t).countP (leafNamed tree name) = g.length := by
    rw [List.countP_append, List.countP_eq_length.mpr all,
      List.countP_eq_zero.mpr fun x member => Bool.eq_false_iff.mp (none x member), Nat.add_zero]
  have filtered : (g ++ t).filter (leafNamed tree name) = g := by
    rw [List.filter_append, List.filter_eq_self.mpr all,
      List.filter_eq_nil_iff.mpr fun x member => Bool.eq_false_iff.mp (none x member), List.append_nil]
  have other : ∀ {name'}, name' ≠ name → ∀ x ∈ g, leafNamed tree name' x ≠ true :=
    fun different x member leaf => different (leafNamed_unique leaf (all x member))
  have countOther : ∀ {name'}, name' ≠ name →
      (g ++ t).countP (leafNamed tree name') = t.countP (leafNamed tree name') := by
    intro name' different
    rw [List.countP_append, List.countP_eq_zero.mpr (other different), Nat.zero_add]
  have filterOther : ∀ {name'}, name' ≠ name →
      (g ++ t).filter (leafNamed tree name') = t.filter (leafNamed tree name') := by
    intro name' different
    rw [List.filter_append, List.filter_eq_nil_iff.mpr (other different), List.nil_append]
  have noneBehind : t.countP (leafNamed tree name) = 0 :=
    List.countP_eq_zero.mpr fun x member => Bool.eq_false_iff.mp (none x member)
  have lastLeaf := all last (List.mem_of_getLast? isLast)
  constructor
  · intro fair
    refine ⟨(shownGroup_iff lastLeaf).mpr fun node isNode => ?_,
      (together_append all none).mp fair.together, fun name' r node many isLast' isNode => ?_,
      fun r member alone => fair.plain r (List.mem_append_right g member) ?_⟩
    · have readable := fair.readable name last node
      rw [count, filtered] at readable
      exact readable several isLast isNode
    · have different : name' ≠ name := by
        rintro rfl
        omega
      have readable := fair.readable name' r node
      rw [countOther different, filterOther different] at readable
      exact readable many isLast' isNode
    · refine alone.imp id fun one => ?_
      rw [countOther (by intro same; rw [same, noneBehind] at one; cases one), one]
  · rintro ⟨shown, fair⟩
    refine ⟨(together_append all none).mpr fair.together, fun name' r node many isLast' isNode => ?_,
      fun r member alone => ?_⟩
    · by_cases same : name' = name
      · subst same
        rw [filtered, isLast] at isLast'
        cases isLast'
        rw [count]
        exact (shownGroup_iff lastLeaf).mp shown node isNode
      · rw [countOther same] at many ⊢
        rw [filterOther same] at isLast'
        exact fair.readable name' r node many isLast' isNode
    · rcases List.mem_append.mp member with inGroup | behind
      · obtain ⟨-, isName, leaf⟩ := leafNamed_iff.mp (all r inGroup)
        rw [isName, count] at alone
        exact absurd leaf (alone.resolve_right (by omega))
      · refine fair.plain r behind (alone.imp id fun one => ?_)
        by_cases same : nameOf tree r = name
        · rw [same, count] at one
          omega
        · rwa [countOther same] at one

end Rounds

/-! ### The lines of a subtree -/

section Walk

variable (tree : Heap)

/-- The lines of a loop over children. -/
def walkAll (walk : NodeRef → Text → List Mark) : Nat → List NodeRef → List Mark
  | 0, _ => []
  | _ + 1, [] => []
  | rounds + 1, r :: rest =>
    let k := (r :: rest).countP (leafNamed tree (nameOf tree r))
    if 1 < k then
      ((r :: rest)[k - 1]?.elim [] fun last => walk last (shownGroup tree k last)) ++
        walkAll walk rounds ((r :: rest).drop k)
    else walk r (shownOf tree r) ++ walkAll walk rounds rest

/-- The lines of a node printed under a name, and of the nodes below it. -/
def walk : Nat → NodeRef → Text → List Mark
  | 0, _, _ => []
  | levels + 1, r, shown =>
    (r, shown) :: walkAll tree (walk levels) (childrenOf tree r).length (childrenOf tree r)

/-- All children below a node are fair. -/
def FairBelow (levels : Nat) (r : NodeRef) : Prop :=
  ∀ p ∈ preorder tree levels r, Fair tree (childrenOf tree p)

end Walk

section Covers

variable {tree : Heap} {r last : NodeRef} {cs g tail more : List NodeRef} {marks : List Mark}
  {shown name : Text} {k n : Nat}

theorem fair_nil : Fair tree [] :=
  ⟨trivial, fun _ _ _ several => absurd several (Nat.not_lt_zero 1),
    fun _ member => absurd member List.not_mem_nil⟩

/-- In a list without repetitions only a list of one element starts and ends with the same one. -/
theorem eq_nil_of_getLast {x : NodeRef} {t : List NodeRef} (once : (x :: t).Nodup) (behind : g ⊆ t)
    (isLast : (x :: g).getLast? = some x) : g = [] := by
  by_contra more
  rw [List.getLast?_cons, List.getLast?_eq_some_getLast more] at isLast
  have same : g.getLast more = x := Option.some.inj isLast
  have member := behind (List.getLast_mem more)
  rw [same] at member
  exact (List.nodup_cons.mp once).1 member

/-- A line whose node is the first of the nodes stands for this node alone. -/
theorem covers_cons (once : (r :: tail).Nodup) :
    Covers tree ((r, shown) :: marks) (r :: tail) ↔ Plain shown ∧ Covers tree marks tail := by
  constructor
  · rintro ⟨groups, stands, nodes⟩
    obtain _ | ⟨first, rest⟩ := stands
    rename_i g groups
    obtain ⟨isLast, kind⟩ := first
    obtain ⟨x, g', rfl⟩ := List.exists_cons_of_ne_nil (List.ne_nil_of_mem (List.mem_of_getLast? isLast))
    have split : x :: (g' ++ groups.flatten) = r :: tail := nodes
    obtain ⟨rfl, behind⟩ := List.cons.inj split
    have inTail : g' ⊆ tail := fun y member => behind ▸ List.mem_append_left _ member
    obtain rfl := eq_nil_of_getLast once inTail isLast
    rcases kind with ⟨-, plain⟩ | ⟨several, -⟩
    · exact ⟨plain, groups, rest, behind⟩
    · exact absurd several (lt_irrefl 1)
  · rintro ⟨plain, groups, stands, nodes⟩
    exact ⟨[r] :: groups, .cons ⟨rfl, Or.inl ⟨rfl, plain⟩⟩ stands, congrArg (r :: ·) nodes⟩

/-- Nodes without children, of which the last is one of the children, are the children up to there. -/
theorem leaves_front {m : Nat} (nodes : g ++ more = cs.flatMap (preorder tree (n + 1)) ++ tail)
    (leaves : ∀ x ∈ g, childrenOf tree x = []) (here : cs[m]? = some last)
    (isLast : g.getLast? = some last) (once : (cs.flatMap (preorder tree (n + 1)) ++ tail).Nodup) :
    g = cs.take (m + 1) ∧ more = (cs.drop (m + 1)).flatMap (preorder tree (n + 1)) ++ tail := by
  induction cs generalizing g m with
  | nil => cases here
  | cons c cs ih =>
    obtain ⟨x, g', rfl⟩ := List.exists_cons_of_ne_nil (List.ne_nil_of_mem (List.mem_of_getLast? isLast))
    rw [List.flatMap_cons] at nodes once
    obtain ⟨rfl, -⟩ := List.cons.inj (nodes : x :: (g' ++ more) = c :: (_ ++ _ ++ tail))
    rw [preorder_leaf n (leaves x List.mem_cons_self)] at nodes once
    have behind : g' ++ more = cs.flatMap (preorder tree (n + 1)) ++ tail := (List.cons.inj nodes).2
    obtain ⟨notBehind, once'⟩ := List.nodup_cons.mp
      (once : (x :: (cs.flatMap (preorder tree (n + 1)) ++ tail)).Nodup)
    cases m with
    | zero =>
      obtain rfl : x = last := Option.some.inj here
      have inTail : g' ⊆ cs.flatMap (preorder tree (n + 1)) ++ tail :=
        fun y member => behind ▸ List.mem_append_left _ member
      obtain rfl := eq_nil_of_getLast once inTail isLast
      exact ⟨rfl, behind⟩
    | succ m =>
      have isChild : last ∈ cs := List.mem_of_getElem? here
      have some : g' ≠ [] := by
        rintro rfl
        cases isLast
        refine notBehind (List.mem_append_left _ (List.mem_flatMap.mpr ⟨x, isChild, ?_⟩))
        exact List.mem_cons_self
      have isLast' : g'.getLast? = Option.some last := by
        rw [List.getLast?_eq_some_getLast some]
        rw [List.getLast?_cons, List.getLast?_eq_some_getLast some] at isLast
        exact isLast
      obtain ⟨front, back⟩ := ih behind (fun y member => leaves y (List.mem_cons_of_mem _ member)) here
        isLast' once'
      exact ⟨congrArg (x :: ·) front, back⟩

theorem flatMap_leaves (leaves : ∀ x ∈ g, childrenOf tree x = []) :
    g.flatMap (preorder tree (n + 1)) = g := by
  induction g with
  | nil => rfl
  | cons x g ih =>
    rw [List.flatMap_cons, preorder_leaf n (leaves x List.mem_cons_self),
      ih fun y member => leaves y (List.mem_cons_of_mem _ member)]
    rfl

/-- A line whose node is the `k`-th child stands for the first `k` children. -/
theorem covers_group (several : 1 < k) (here : cs[k - 1]? = some last)
    (siblings : ∃ p, ∀ x ∈ cs, IsChild tree p x)
    (once : (cs.flatMap (preorder tree (n + 1)) ++ tail).Nodup) :
    Covers tree ((last, shown) :: marks) (cs.flatMap (preorder tree (n + 1)) ++ tail) ↔
      (∃ name, shown = compactName k name ∧ ∀ x ∈ cs.take k, leafNamed tree name x = true) ∧
      Covers tree marks ((cs.drop k).flatMap (preorder tree (n + 1)) ++ tail) := by
  have pred : k - 1 + 1 = k := by omega
  have inside : k - 1 < cs.length := (List.getElem?_eq_some_iff.mp here).1
  have length : (cs.take k).length = k := by
    rw [List.length_take]
    omega
  constructor
  · rintro ⟨groups, stands, nodes⟩
    obtain _ | ⟨first, rest⟩ := stands
    rename_i g groups
    obtain ⟨isLast, kind⟩ := first
    have split : g ++ groups.flatten = _ := nodes
    have more : g.length ≠ 1 := by
      intro one
      obtain ⟨x, rfl⟩ := List.length_eq_one_iff.mp one
      obtain rfl : x = last := Option.some.inj isLast
      obtain ⟨c, cs', rfl⟩ := List.exists_cons_of_ne_nil (List.ne_nil_of_mem (List.mem_of_getElem? here))
      rw [List.flatMap_cons] at split once
      have first : x :: groups.flatten = c :: (_ ++ cs'.flatMap (preorder tree (n + 1)) ++ tail) := split
      obtain ⟨rfl, -⟩ := List.cons.inj first
      rw [List.getElem?_cons, if_neg (by omega)] at here
      have again : x ∈ cs'.flatMap (preorder tree (n + 1)) :=
        List.mem_flatMap.mpr ⟨x, List.mem_of_getElem? here, List.mem_cons_self⟩
      refine (List.nodup_cons.mp (once : (x :: (_ ++ _ ++ tail)).Nodup)).1 ?_
      exact List.mem_append_left _ (List.mem_append_right _ again)
    obtain ⟨-, -, name, labels, all⟩ := kind.resolve_left fun single => more single.1
    have leaves : ∀ x ∈ g, childrenOf tree x = [] :=
      fun x member => (leafNamed_iff.mp (all x member)).2.2
    obtain ⟨front, back⟩ := leaves_front split leaves here isLast once
    rw [pred] at front back
    subst front
    rw [length] at labels
    exact ⟨⟨name, labels, all⟩, groups, rest, back⟩
  · rintro ⟨⟨name, labels, all⟩, groups, stands, nodes⟩
    obtain ⟨p, isChild⟩ := siblings
    refine ⟨cs.take k :: groups,
      .cons ⟨?_, Or.inr ⟨by omega, ⟨p, fun x member => ?_⟩, name, ?_, all⟩⟩ stands, ?_⟩
    · rw [List.getLast?_eq_getElem?, length, List.getElem?_take_of_lt (by omega)]
      exact here
    · exact isChild x (List.mem_of_mem_take member)
    · rw [length]
      exact labels
    · rw [List.flatten_cons, nodes, ← List.append_assoc]
      refine congrArg (· ++ tail) ?_
      have leaves : ∀ x ∈ cs.take k, childrenOf tree x = [] :=
        fun x member => (leafNamed_iff.mp (all x member)).2.2
      conv_rhs => rw [← List.take_append_drop k cs, List.flatMap_append, flatMap_leaves leaves]

/-- The condition on a group in front, and on what stands behind it. -/
theorem fair_group {rest : List NodeRef} (known : tree r ≠ none)
    (isCount : (r :: rest).countP (leafNamed tree (nameOf tree r)) = k) (several : 1 < k)
    (here : (r :: rest)[k - 1]? = some last) :
    Fair tree (r :: rest) ↔
      (∃ name, shownGroup tree k last = compactName k name ∧
        ∀ x ∈ (r :: rest).take k, leafNamed tree name x = true) ∧ Fair tree ((r :: rest).drop k) := by
  have atMost : k ≤ (r :: rest).length := isCount ▸ List.countP_le_length
  have length : ((r :: rest).take k).length = k := List.length_take_of_le atMost
  have split := List.take_append_drop k (r :: rest)
  have isLast : ((r :: rest).take k).getLast? = some last := by
    rw [List.getLast?_eq_getElem?, length, List.getElem?_take_of_lt (by omega)]
    exact here
  have first : r ∈ (r :: rest).take k := by
    obtain ⟨m, rfl⟩ := Nat.exists_eq_succ_of_ne_zero (Nat.ne_of_gt (lt_trans Nat.zero_lt_one several))
    exact List.mem_cons_self
  have append : (∀ x ∈ (r :: rest).take k, leafNamed tree (nameOf tree r) x = true) →
      (Fair tree (r :: rest) ↔ shownGroup tree k last = compactName k (nameOf tree r) ∧
        Fair tree ((r :: rest).drop k)) := by
    intro all
    have count := congrArg (List.countP (leafNamed tree (nameOf tree r))) split
    rw [List.countP_append, List.countP_eq_length.mpr all, length, isCount] at count
    have zero : ((r :: rest).drop k).countP (leafNamed tree (nameOf tree r)) = 0 := by omega
    have none := fun x member => Bool.eq_false_iff.mpr (List.countP_eq_zero.mp zero x member)
    have both := fair_append all none (length.symm ▸ several) isLast
    rwa [split, length] at both
  constructor
  · intro fair
    have all := fair.together.group known (isCount.symm ▸ several)
    rw [isCount] at all
    obtain ⟨shows, behind⟩ := (append all).mp fair
    exact ⟨⟨_, shows, all⟩, behind⟩
  · rintro ⟨⟨name, shows, all⟩, behind⟩
    obtain rfl := (leafNamed_iff.mp (all r first)).2.1
    exact (append all).mpr ⟨shows, behind⟩

/-- **The loop over the children**: its lines stand for the nodes below the children exactly when the
children and those below them are fair. -/
theorem walkAll_covers {levels : Nat} (known : ∀ p r, IsChild tree p r → tree r ≠ none)
    (walks : ∀ r marks tail, Within tree levels r → tree r ≠ none →
      (preorder tree levels r ++ tail).Nodup →
      (Covers tree (walk tree levels r (shownOf tree r) ++ marks) (preorder tree levels r ++ tail) ↔
        Plain (shownOf tree r) ∧ FairBelow tree levels r ∧ Covers tree marks tail)) :
    ∀ rounds cs, cs.length ≤ rounds → (∃ p, ∀ x ∈ cs, IsChild tree p x) →
      (∀ x ∈ cs, Within tree levels x) → (cs.flatMap (preorder tree levels) ++ tail).Nodup →
      (Covers tree (walkAll tree (walk tree levels) rounds cs ++ marks)
          (cs.flatMap (preorder tree levels) ++ tail) ↔
        (Fair tree cs ∧ ∀ x ∈ cs, FairBelow tree levels x) ∧ Covers tree marks tail) := by
  intro rounds
  induction rounds with
  | zero =>
    intro cs short _ _ _
    obtain rfl := List.length_eq_zero_iff.mp (Nat.le_zero.mp short)
    exact (and_iff_right ⟨fair_nil, fun _ member => absurd member List.not_mem_nil⟩).symm
  | succ rounds ih =>
    intro cs short siblings within once
    cases cs with
    | nil => exact (and_iff_right ⟨fair_nil, fun _ member => absurd member List.not_mem_nil⟩).symm
    | cons r rest =>
      obtain ⟨p, isChild⟩ := siblings
      have known' : ∀ x ∈ r :: rest, tree x ≠ none := fun x member => known p x (isChild x member)
      have shorter : rest.length ≤ rounds := Nat.le_of_succ_le_succ short
      rw [walkAll]
      by_cases several : 1 < (r :: rest).countP (leafNamed tree (nameOf tree r))
      · rw [if_pos several]
        generalize isCount : (r :: rest).countP (leafNamed tree (nameOf tree r)) = k at several ⊢
        have atMost : k ≤ (r :: rest).length := isCount ▸ List.countP_le_length
        obtain ⟨last, here⟩ : ∃ last, (r :: rest)[k - 1]? = some last :=
          ⟨_, List.getElem?_eq_getElem (by omega)⟩
        obtain ⟨n, rfl⟩ : ∃ n, levels = n + 1 := Nat.exists_eq_succ_of_ne_zero
          (Nat.ne_of_gt (within r List.mem_cons_self 0 r .top))
        have behind := ih ((r :: rest).drop k) (by rw [List.length_drop]; omega)
          ⟨p, fun x member => isChild x (List.mem_of_mem_drop member)⟩
          (fun x member => within x (List.mem_of_mem_drop member))
        rw [here, Option.elim_some, walk, List.cons_append, List.cons_append,
          covers_group several here ⟨p, isChild⟩ once,
          fair_group (known' r List.mem_cons_self) isCount several here, and_assoc, and_assoc]
        refine and_congr_right ?_
        rintro ⟨name, -, all⟩
        have leaves : ∀ x ∈ (r :: rest).take k, childrenOf tree x = [] :=
          fun x member => (leafNamed_iff.mp (all x member)).2.2
        have isLeaf : childrenOf tree last = [] := by
          refine leaves last (List.mem_of_getElem? (i := k - 1) ?_)
          rw [List.getElem?_take_of_lt (by omega)]
          exact here
        have below : (∀ x ∈ r :: rest, FairBelow tree (n + 1) x) ↔
            ∀ x ∈ (r :: rest).drop k, FairBelow tree (n + 1) x := by
          refine ⟨fun fair x member => fair x (List.mem_of_mem_drop member), fun fair x member => ?_⟩
          rw [← List.take_append_drop k (r :: rest)] at member
          rcases List.mem_append.mp member with front | back
          · intro p isP
            rw [preorder_leaf n (leaves x front), List.mem_singleton] at isP
            rw [isP, leaves x front]
            exact fair_nil
          · exact fair x back
        have sub : walkAll tree (walk tree n) (childrenOf tree last).length
            (childrenOf tree last) = [] := by
          rw [isLeaf]
          rfl
        have once' : (((r :: rest).drop k).flatMap (preorder tree (n + 1)) ++ tail).Nodup := by
          rw [← List.take_append_drop k (r :: rest), List.flatMap_append, List.append_assoc] at once
          exact once.of_append_right
        rw [sub, below, List.nil_append, behind once', and_assoc]
      · rw [if_neg several, List.append_assoc, List.flatMap_cons, List.append_assoc]
        rw [List.flatMap_cons, List.append_assoc] at once
        rw [walks r _ _ (within r List.mem_cons_self) (known' r List.mem_cons_self) once,
          ih rest shorter ⟨p, fun x member => isChild x (List.mem_cons_of_mem _ member)⟩
            (fun x member => within x (List.mem_cons_of_mem _ member)) once.of_append_right,
          fair_cons known' (Nat.le_of_not_lt several), List.forall_mem_cons]
        constructor
        · rintro ⟨plain, below, ⟨fair, all⟩, covers⟩
          exact ⟨⟨⟨plain, fair⟩, below, all⟩, covers⟩
        · rintro ⟨⟨⟨plain, fair⟩, below, all⟩, covers⟩
          exact ⟨plain, below, ⟨fair, all⟩, covers⟩

/-- **The lines of a subtree** stand for its nodes exactly when the node's own name is plain and the
children of every node in it are fair. -/
theorem covers_walk (known : ∀ p r, IsChild tree p r → tree r ≠ none) (levels : Nat) :
    ∀ r marks tail, Within tree levels r → tree r ≠ none →
      (preorder tree levels r ++ tail).Nodup →
      (Covers tree (walk tree levels r (shownOf tree r) ++ marks) (preorder tree levels r ++ tail) ↔
        Plain (shownOf tree r) ∧ FairBelow tree levels r ∧ Covers tree marks tail) := by
  induction levels with
  | zero => exact fun r _ _ within => absurd (within 0 r .top) (Nat.not_lt_zero 0)
  | succ levels ih =>
    intro r marks tail within present once
    have nodes : preorder tree (levels + 1) r =
        r :: (childrenOf tree r).flatMap (preorder tree levels) := rfl
    have below : FairBelow tree (levels + 1) r ↔
        Fair tree (childrenOf tree r) ∧ ∀ x ∈ childrenOf tree r, FairBelow tree levels x := by
      rw [FairBelow, nodes, List.forall_mem_cons]
      refine and_congr_right fun _ => ?_
      constructor
      · exact fun fair x member p isP => fair p (List.mem_flatMap.mpr ⟨x, member, isP⟩)
      · intro fair p isP
        obtain ⟨x, member, below⟩ := List.mem_flatMap.mp isP
        exact fair x member p below
    rw [nodes, List.cons_append] at once ⊢
    rw [walk, List.cons_append, covers_cons once, below]
    refine and_congr_right fun _ => ?_
    exact walkAll_covers known ih _ _ le_rfl ⟨r, fun x member => mem_children.mp member⟩
      (fun x member => within.child (mem_children.mp member)) (List.nodup_cons.mp once).2

end Covers

/-! ### Printing -/

section Printing

variable {opts : Options} {tree : Heap}

/-- What the screen shows after some more lines. -/
def Prints (run : Option Screen) (screen : Screen) (marks : List Mark) : Prop :=
  ∃ after lines, run = some after ∧ after.lines = screen.lines ++ lines ∧
    lines.map (fun line => (line.node, line.name)) = marks

/-- One print after another. -/
theorem Prints.bind {run : Option Screen} {next : Screen → Option Screen} {screen : Screen}
    {first second : List Mark} (prints : Prints run screen first)
    (continues : ∀ middle, Prints (next middle) middle second) :
    Prints (run.bind next) screen (first ++ second) := by
  obtain ⟨middle, lines, ran, shows, marks⟩ := prints
  obtain ⟨after, lines', ran', shows', marks'⟩ := continues middle
  refine ⟨after, lines ++ lines', ?_, ?_, ?_⟩
  · rw [ran]
    exact ran'
  · rw [shows', shows, List.append_assoc]
  · rw [List.map_append, marks, marks']

/-- The loop over the children. -/
theorem printChildren_walk (compact : opts.show_compact = true) {levels : Nat} {node : ProcessNode}
    {depth : Int} {print : NodeRef → ProcessNode → Int → Bool → Bool → Screen → Option Screen}
    (known : ∀ r ∈ node.children, tree r ≠ none)
    (prints : ∀ r ∈ node.children, ∀ child depth last first screen,
      child.children = childrenOf tree r → Prints (print r child depth last first screen) screen
        (walk tree levels r (shownName child))) :
    ∀ rounds i screen, node.children.length ≤ i + rounds →
      Prints (printChildren opts tree print node depth rounds i screen) screen
        (walkAll tree (walk tree levels) rounds (node.children.drop i)) := by
  intro rounds
  induction rounds with
  | zero =>
    exact fun i screen _ => ⟨screen, [], rfl, (List.append_nil _).symm, rfl⟩
  | succ rounds ih =>
    intro i screen enough
    rw [printChildren]
    cases isChild : node.children[i]? with
    | none =>
      rw [List.drop_eq_nil_of_le (List.getElem?_eq_none_iff.mp isChild)]
      exact ⟨screen, [], rfl, (List.append_nil _).symm, rfl⟩
    | some r =>
      obtain ⟨inside, isR⟩ := List.getElem?_eq_some_iff.mp isChild
      have rest : node.children.drop i = r :: node.children.drop (i + 1) :=
        isR ▸ List.drop_eq_getElem_cons inside
      have member : r ∈ node.children := List.mem_of_getElem? isChild
      obtain ⟨child, isNode⟩ := Option.ne_none_iff_exists'.mp (known r member)
      have name : nameOf tree r = child.name := by rw [nameOf, isNode, Option.elim_some]
      have children : child.children = childrenOf tree r := by rw [childrenOf, isNode, Option.elim_some]
      have count : count_same_name_children tree node i child.name =
          (r :: node.children.drop (i + 1)).countP (leafNamed tree (nameOf tree r)) := by
        rw [count_same_name_children, rest, name]
      dsimp only
      rw [isNode, rest, walkAll]
      show Prints (if 1 < (if opts.show_compact = true then _ else 1) then _ else _) _ _
      rw [if_pos compact, count]
      by_cases several :
          1 < (r :: node.children.drop (i + 1)).countP (leafNamed tree (nameOf tree r))
      · rw [if_pos several, if_pos several]
        have atMost := List.countP_le_length (p := leafNamed tree (nameOf tree r))
          (l := r :: node.children.drop (i + 1))
        generalize (r :: node.children.drop (i + 1)).countP (leafNamed tree (nameOf tree r)) = k
          at several atMost ⊢
        rw [← rest] at atMost ⊢
        rw [List.length_drop] at atMost
        obtain ⟨last, here⟩ : ∃ last, node.children[i + (k - 1)]? = some last :=
          ⟨_, List.getElem?_eq_getElem (by omega)⟩
        have isLast : last ∈ node.children := List.mem_of_getElem? here
        obtain ⟨lastNode, isNode'⟩ := Option.ne_none_iff_exists'.mp (known last isLast)
        have leaf : (lastNode.rename k).children = childrenOf tree last := by
          rw [childrenOf, isNode', Option.elim_some]
          rfl
        have shown : shownGroup tree k last = shownName (lastNode.rename k) := by
          rw [shownGroup, isNode', Option.elim_some]
        rw [List.getElem?_drop, here, Option.elim_some, shown, List.drop_drop]
        show Prints ((tree last).bind _) _ _
        rw [isNode']
        have next : i + (k - 1) + 1 = i + k := by omega
        refine (prints last isLast (lastNode.rename k) depth _ _ screen leaf).bind fun middle => ?_
        rw [next]
        exact ih (i + k) middle (by omega)
      · rw [if_neg several, if_neg several]
        have shown : shownOf tree r = shownName child := by rw [shownOf, isNode, Option.elim_some]
        rw [shown]
        exact (prints r member child depth _ _ screen children).bind
          fun middle => ih (i + 1) middle (by omega)

/-- **`print_process_tree` ends** and prints the lines of the subtree. -/
theorem print_walk (compact : opts.show_compact = true)
    (known : ∀ p r, IsChild tree p r → tree r ≠ none) (levels : Nat) :
    ∀ r node depth last first screen, Within tree levels r → node.children = childrenOf tree r →
      Prints (print_process_tree opts tree levels r node depth last first screen) screen
        (walk tree levels r (shownName node)) := by
  induction levels with
  | zero => exact fun r _ _ _ _ _ within => absurd (within 0 r .top) (Nat.not_lt_zero 0)
  | succ levels ih =>
    intro r node depth last first screen within children
    have child : ∀ {x}, x ∈ node.children → IsChild tree r x := fun member => by
      rw [children] at member
      exact mem_children.mp member
    obtain ⟨after, lines, ran, shows, marks⟩ := printChildren_walk compact
      (fun x member => known r x (child member))
      (fun x member node depth last first screen => ih x node depth last first screen
        (within.child (child member)))
      node.children.length 0 _ (Nat.le_of_eq (Nat.zero_add _).symm)
    refine ⟨after, _ :: lines, ran, shows.trans (List.append_assoc _ _ _), ?_⟩
    rw [List.map_cons, marks, walk, ← children]
    rfl

end Printing

/-! ### Small tables -/

/-- The nodes of some processes without threads. -/
def heapOf (nodes : List ProcessNode) : Heap
  | .process p => nodes.find? fun node => node.pid = p
  | .thread _ _ => none

section Small

variable {nodes : List ProcessNode} {limit : Nat}

theorem heapOf_some {p : Nat} {node : ProcessNode} (isNode : heapOf nodes (.process p) = some node) :
    node ∈ nodes ∧ node.pid = p := by
  have found : nodes.find? (fun node => decide (node.pid = (p : Int))) = some node := isNode
  exact ⟨List.mem_of_find?_eq_some found, of_decide_eq_true
    (List.find?_some (p := fun node : ProcessNode => decide (node.pid = (p : Int))) found)⟩

theorem heapOf_fresh (bounded : ∀ node ∈ nodes, node.pid < limit) (inside : limit ≤ MAX_PROCESSES)
    (empty : ∀ node ∈ nodes, node.children = []) : Fresh (heapOf nodes) := by
  have known : ∀ {r node}, heapOf nodes r = some node → node ∈ nodes := by
    intro r node isNode
    cases r with
    | thread p i => cases isNode
    | process p => exact (heapOf_some isNode).1
  have none : ∀ {p r}, ¬IsChild (heapOf nodes) p r := by
    rintro p r ⟨node, isNode, member⟩
    rw [empty node (known isNode)] at member
    cases member
  refine ⟨fun {p} present => ?_, fun child => absurd child none, fun child => absurd child none,
    fun {p node} isNode => ?_, none⟩
  · obtain ⟨node, isNode⟩ := Option.ne_none_iff_exists'.mp present
    have below := bounded node (known isNode)
    rw [(heapOf_some isNode).2] at below
    omega
  · rw [empty node (known isNode)]
    exact List.nodup_nil

/-- Only the processes that are there are children. -/
theorem filter_childOf {heap : Heap} (outside : ∀ i, limit ≤ i → heap (.process i) = none)
    (inside : limit ≤ MAX_PROCESSES) (p : Nat) :
    (List.range MAX_PROCESSES).filter (childOf heap p) = (List.range limit).filter (childOf heap p) := by
  obtain ⟨more, isMore⟩ := Nat.exists_eq_add_of_le inside
  rw [isMore, List.range_add, List.filter_append]
  refine (congrArg _ (List.filter_eq_nil_iff.mpr fun i member child => ?_)).trans (List.append_nil _)
  obtain ⟨j, -, rfl⟩ := List.mem_map.mp member
  rw [childOf, outside _ (Nat.le_add_right limit j)] at child
  cases child

theorem heapOf_children (bounded : ∀ node ∈ nodes, node.pid < limit) (inside : limit ≤ MAX_PROCESSES)
    (p : Nat) : (List.range MAX_PROCESSES).filter (childOf (heapOf nodes) p) =
      (List.range limit).filter (childOf (heapOf nodes) p) := by
  refine filter_childOf (fun i large => ?_) inside p
  by_contra present
  obtain ⟨node, isNode⟩ := Option.ne_none_iff_exists'.mp present
  have below := bounded node (heapOf_some isNode).1
  rw [(heapOf_some isNode).2] at below
  omega

theorem heapOf_built {qsort : (NodeRef → NodeRef → Int) → List NodeRef → List NodeRef} {opts : Options}
    (bounded : ∀ node ∈ nodes, node.pid < limit) (inside : limit ≤ MAX_CHILDREN)
    (empty : ∀ node ∈ nodes, node.children = [])
    (parents : ∀ node ∈ nodes, 0 < node.ppid → node.ppid.toNat < MAX_PROCESSES) :
    build_process_tree qsort opts (heapOf nodes) = .ok ((List.range MAX_PROCESSES).foldl
      (sort_children qsort opts) (attached (heapOf nodes) MAX_PROCESSES)) := by
  have below : limit ≤ MAX_PROCESSES := le_trans inside (by decide)
  refine build_ok (fun {i node} isNode => parents node (heapOf_some isNode).1)
    fun {p node} isNode => ?_
  obtain ⟨old, here, rfl⟩ := Option.map_eq_some_iff.mp isNode
  dsimp only
  rw [empty old (heapOf_some here).1, heapOf_children bounded below, List.nil_append,
    List.length_map]
  refine le_trans (List.length_filter_le _ _) ?_
  rwa [List.length_range]

end Small

/-! ### The whole program -/

/-- `process_tree[1]` -/
abbrev initRef : NodeRef := .process 1

/-- The nodes below process 1. -/
abbrev reachable (tree : Heap) : List NodeRef := preorder tree (MAX_PROCESSES + 1) initRef

/-- A process is its own descendant only when it has a parent. -/
theorem acyclic_of_root {heap tree : Heap} {init : ProcessNode} {n : Nat} (fresh : Fresh heap)
    (same : Rearranged (attached heap n) tree) (present : heap initRef = some init)
    (root : init.ppid ≤ 0) (d : Nat) : ¬Path tree initRef (d + 1) initRef := by
  intro path
  obtain _ | ⟨-, child⟩ := path
  rcases isChild_attached.mp (same.isChild.mp child) with old | ⟨q, i, rfl, isInit, -, child, -⟩
  · rename_i p
    cases p with
    | thread p i => exact fresh.leaf old
    | process p =>
      obtain ⟨i, impossible⟩ := fresh.threads old
      cases impossible
  · cases isInit
    rw [childOf, present, Option.elim_some, Bool.and_eq_true, decide_eq_true_iff] at child
    omega

section Program

variable {qsort : (NodeRef → NodeRef → Int) → List NodeRef → List NodeRef} {opts : Options}
  {heap tree : Heap} {init : ProcessNode}

/-- The lines of a whole tree. -/
theorem prints_reachable (linked : Linked tree) (present : tree initRef = some init)
    (acyclic : ∀ d, ¬Path tree initRef (d + 1) initRef) (compact : opts.show_compact = true)
    (screen : Screen) :
    ∃ after lines, print_process_tree opts tree (MAX_PROCESSES + 1) initRef init (-1) true true screen =
        some after ∧ after.lines = screen.lines ++ lines ∧
      (Covers tree (lines.map fun line => (line.node, line.name)) (reachable tree) ↔
        Plain (shownName init) ∧ ∀ p node, p ∈ reachable tree → tree p = some node →
          Fair tree node.children) := by
  have known : ∀ p r, IsChild tree p r → tree r ≠ none := fun _ _ => linked.known
  have within := within_top linked acyclic
  have once := nodup_preorder linked acyclic .top (MAX_PROCESSES + 1)
  have children : init.children = childrenOf tree initRef := by rw [childrenOf, present]; rfl
  have shown : shownOf tree initRef = shownName init := by rw [shownOf, present]; rfl
  obtain ⟨after, lines, ran, shows, marks⟩ := print_walk compact known (MAX_PROCESSES + 1) initRef init
    (-1) true true screen within children
  refine ⟨after, lines, ran, shows, ?_⟩
  have nil : Covers tree [] [] := ⟨[], .nil, rfl⟩
  have covers := covers_walk known (MAX_PROCESSES + 1) initRef [] [] within
    (by rw [present]; exact Option.some_ne_none _) (by rwa [List.append_nil])
  rw [List.append_nil, List.append_nil, shown, and_iff_left nil] at covers
  rw [marks, covers]
  refine and_congr_right fun _ => ⟨fun fair p node isP isNode => ?_, fun fair p isP => ?_⟩
  · have here := fair p isP
    rwa [childrenOf, isNode] at here
  · rw [childrenOf]
    cases isNode : tree p with
    | none => exact fair_nil
    | some node => exact fair p node isP isNode

/-- **What is printed accounts for the nodes below process 1**, each once and in order, exactly when the
text of process 1 is plain and the children of every node below it are fair. -/
theorem pstree_accounts (permutes : ∀ compare l, (qsort compare l).Perm l) (fresh : Fresh heap)
    (built : build_process_tree qsort opts heap = .ok tree) (present : tree initRef = some init)
    (acyclic : ∀ d, ¬Path tree initRef (d + 1) initRef) (compact : opts.show_compact = true)
    (screen : Screen) :
    (reachable tree).Nodup ∧ (∀ r, r ∈ reachable tree ↔ ∃ d, Path tree initRef d r) ∧
    ∃ after lines, print_process_tree opts tree (MAX_PROCESSES + 1) initRef init (-1) true true screen =
        some after ∧ after.lines = screen.lines ++ lines ∧
      (Covers tree (lines.map fun line => (line.node, line.name)) (reachable tree) ↔
        Plain (shownName init) ∧ ∀ p node, p ∈ reachable tree → tree p = some node →
          Fair tree node.children) := by
  have linked := (build_linked permutes fresh built).2
  refine ⟨nodup_preorder linked acyclic .top _,
    fun r => mem_preorder.trans ⟨fun below => ?_, fun below => ?_⟩,
    prints_reachable linked present acyclic compact screen⟩
  · obtain ⟨d, -, path⟩ := below
    exact ⟨d, path⟩
  · obtain ⟨d, path⟩ := below
    exact ⟨d, within_top linked acyclic d r path, path⟩

end Program

/-! ### Two tables -/

/-- `qsort`, as insertion sort. -/
def insertion (compare : NodeRef → NodeRef → Int) (l : List NodeRef) : List NodeRef :=
  l.insertionSort fun a b => compare a b ≤ 0

theorem insertion_perm (compare : NodeRef → NodeRef → Int) (l : List NodeRef) :
    (insertion compare l).Perm l := List.perm_insertionSort _ l

/-- Sorted by pid, the other flags as they are at the start. -/
def byPid : Options where
  show_threads := true
  use_thread_names := false
  show_pid := false
  show_compact := true
  show_cmdline := false
  sort_by_pid := true
  align_mode := true
  show_ascii_tree := false

/-- Processes in the order of their pids stay in it. -/
theorem insertion_byPid {heap : Heap} {ps : List Nat} (sorted : ps.Pairwise (· ≤ ·))
    (named : ∀ p ∈ ps, ∃ node, heap (.process p) = some node ∧ node.pid = p) :
    insertion (compareAt heap (ordering byPid)) (ps.map .process) = ps.map .process := by
  refine List.Pairwise.insertionSort_eq (List.pairwise_map.mpr (sorted.imp_of_mem ?_))
  intro p q isP isQ below
  obtain ⟨node, here, pid⟩ := named p isP
  obtain ⟨node', there, pid'⟩ := named q isQ
  rw [compareAt, here, there]
  show node.pid - node'.pid ≤ 0
  omega

/-- A text that is shorter than three bytes is plain. -/
theorem plain_of_short {name : Text} (short : name.length < 3) : Plain name := by
  intro k group same
  rw [same, compactName, List.length_append, List.length_append, List.length_append] at short
  have two : ([42, 91] : Text).length = 2 := rfl
  have one : ([93] : Text).length = 1 := rfl
  omega

/-- "i" with two childless children "a" and a child "b", which has a child "c". -/
def household : List ProcessNode :=
  [⟨1, 0, [105], [], []⟩, ⟨2, 1, [97], [], []⟩, ⟨3, 1, [97], [], []⟩, ⟨4, 1, [98], [], []⟩,
    ⟨5, 4, [99], [], []⟩]

/-- The tree of the household: one group and one child with a child. -/
theorem household_built : ∃ tree, build_process_tree insertion byPid (heapOf household) = .ok tree ∧
    tree initRef = some ⟨1, 0, [105], [], [.process 2, .process 3, .process 4]⟩ ∧
    tree (.process 2) = some ⟨2, 1, [97], [], []⟩ ∧ tree (.process 3) = some ⟨3, 1, [97], [], []⟩ ∧
    tree (.process 4) = some ⟨4, 1, [98], [], [.process 5]⟩ ∧
    tree (.process 5) = some ⟨5, 4, [99], [], []⟩ := by
  have bounded : ∀ node ∈ household, node.pid < (6 : Nat) := by decide
  have empty : ∀ node ∈ household, node.children = [] := by decide
  obtain ⟨tree, built⟩ : ∃ tree, build_process_tree insertion byPid (heapOf household) = .ok tree :=
    ⟨_, heapOf_built bounded (by decide) empty (by decide)⟩
  have attachedNode : ∀ p, attached (heapOf household) MAX_PROCESSES (.process p) =
      (heapOf household (.process p)).map fun node => { node with
        children := node.children ++
          ((List.range 6).filter (childOf (heapOf household) p)).map .process } := by
    intro p
    rw [attached, heapOf_children bounded (by decide)]
  have first := build_children insertion_perm (by decide) ((attachedNode 1).trans rfl) built
  have second := build_children insertion_perm (by decide) ((attachedNode 2).trans rfl) built
  have third := build_children insertion_perm (by decide) ((attachedNode 3).trans rfl) built
  have fourth := build_children insertion_perm (by decide) ((attachedNode 4).trans rfl) built
  have fifth := build_children insertion_perm (by decide) ((attachedNode 5).trans rfl) built
  have order : insertion (compareAt (attached (heapOf household) MAX_PROCESSES) (ordering byPid))
      [.process 2, .process 3, .process 4] = [.process 2, .process 3, .process 4] := by
    refine @insertion_byPid _ [2, 3, 4] (by decide) ?_
    exact List.forall_mem_cons.mpr ⟨⟨_, (attachedNode 2).trans rfl, rfl⟩, List.forall_mem_cons.mpr
      ⟨⟨_, (attachedNode 3).trans rfl, rfl⟩, List.forall_mem_singleton.mpr
        ⟨_, (attachedNode 4).trans rfl, rfl⟩⟩⟩
  exact ⟨tree, built, first.trans (congrArg (fun cs => some (ProcessNode.mk 1 0 [105] [] cs)) order),
    second, third, fourth, fifth⟩

/-- The group and the subtree are both accounted for. -/
theorem pstree_accounts_household : ∃ tree,
    build_process_tree insertion byPid (heapOf household) = .ok tree ∧
    ∃ init after lines, tree initRef = some init ∧ init.children.length = 3 ∧
      print_process_tree byPid tree (MAX_PROCESSES + 1) initRef init (-1) true true ⟨fun _ => false, []⟩ =
        some after ∧ after.lines = [] ++ lines ∧
      Covers tree (lines.map fun line => (line.node, line.name)) (reachable tree) := by
  have fresh : Fresh (heapOf household) := @heapOf_fresh household 6 (by decide) (by decide) (by decide)
  obtain ⟨tree, built, first, second, third, fourth, fifth⟩ := household_built
  obtain ⟨same, linked⟩ := build_linked insertion_perm fresh built
  obtain ⟨-, -, after, lines, ran, shows, covers⟩ := pstree_accounts insertion_perm fresh built first
    (acyclic_of_root fresh same rfl le_rfl) rfl ⟨fun _ => false, []⟩
  refine ⟨tree, built, _, after, lines, first, rfl, ran, shows,
    covers.mpr ⟨plain_of_short (by decide), fun p node _ isNode => ?_⟩⟩
  have isLeaf : leafNamed tree [97] (.process 2) = true ∧ leafNamed tree [97] (.process 3) = true ∧
      leafNamed tree [97] (.process 4) = false := by
    rw [leafNamed, leafNamed, leafNamed, second, third, fourth]
    decide
  have name : nameOf tree (.process 2) = [97] := by
    rw [nameOf, second]
    rfl
  -- one process with a plain name
  have single : ∀ r, tree r ≠ none → Plain (shownOf tree r) → Fair tree [r] := by
    intro r present plain
    refine (fair_cons (fun x member => ?_) List.countP_le_length).mpr ⟨plain, fair_nil⟩
    rw [List.mem_singleton.mp member]
    exact present
  have known : p ∈ household.map fun old => .process old.pid.toNat := by
    rcases same p with ⟨-, absent⟩ | ⟨middle, children, here, -, -⟩
    · rw [absent] at isNode
      cases isNode
    · cases p with
      | thread q i => cases here
      | process q =>
        obtain ⟨old, isOld, -⟩ := Option.map_eq_some_iff.mp here
        obtain ⟨member, number⟩ := heapOf_some isOld
        exact List.mem_map.mpr ⟨old, member, by rw [number, Int.toNat_natCast]⟩
  have cases : p = initRef ∨ p = .process 2 ∨ p = .process 3 ∨ p = .process 4 ∨ p = .process 5 := by
    simpa [household] using known
  rcases cases with rfl | rfl | rfl | rfl | rfl
  · obtain rfl := Option.some.inj (first.symm.trans isNode)
    have last : Fair tree [.process 4] := single _ (by rw [fourth]; exact Option.some_ne_none _)
      (by rw [shownOf, fourth]; exact plain_of_short (by decide))
    have count : [NodeRef.process 2, .process 3, .process 4].countP
        (leafNamed tree (nameOf tree (.process 2))) = 2 := by
      rw [name]
      simp [isLeaf]
    refine (fair_group (by rw [second]; exact Option.some_ne_none _) count (by decide) rfl).mpr
      ⟨⟨[97], by rw [shownGroup, third]; decide, fun x member => ?_⟩, last⟩
    have pair : x = .process 2 ∨ x = .process 3 := by simpa using member
    rcases pair with rfl | rfl
    · exact isLeaf.1
    · exact isLeaf.2.1
  · obtain rfl := Option.some.inj (second.symm.trans isNode)
    exact fair_nil
  · obtain rfl := Option.some.inj (third.symm.trans isNode)
    exact fair_nil
  · obtain rfl := Option.some.inj (fourth.symm.trans isNode)
    exact single _ (by rw [fifth]; exact Option.some_ne_none _)
      (by rw [shownOf, fifth]; exact plain_of_short (by decide))
  · obtain rfl := Option.some.inj (fifth.symm.trans isNode)
    exact fair_nil

/-- "i" with three children "a", the first of which has a child "b". -/
def family : List ProcessNode :=
  [⟨1, 0, [105], [], []⟩, ⟨2, 1, [97], [], []⟩, ⟨3, 1, [97], [], []⟩, ⟨4, 1, [97], [], []⟩,
    ⟨5, 2, [98], [], []⟩]

/-- The second and the third "a" count as the group of the first one: its line names the second, and "b" is
not printed. -/
theorem pstree_hides_subtree : ∃ tree,
    build_process_tree insertion byPid (heapOf family) = .ok tree ∧
    ∃ init after lines, tree initRef = some init ∧
      print_process_tree byPid tree (MAX_PROCESSES + 1) initRef init (-1) true true ⟨fun _ => false, []⟩ =
        some after ∧ after.lines = [] ++ lines ∧
      ¬Covers tree (lines.map fun line => (line.node, line.name)) (reachable tree) := by
  have bounded : ∀ node ∈ family, node.pid < (6 : Nat) := by decide
  have empty : ∀ node ∈ family, node.children = [] := by decide
  have fresh : Fresh (heapOf family) := heapOf_fresh bounded (by decide) empty
  obtain ⟨tree, built⟩ : ∃ tree, build_process_tree insertion byPid (heapOf family) = .ok tree :=
    ⟨_, heapOf_built bounded (by decide) empty (by decide)⟩
  obtain ⟨same, linked⟩ := build_linked insertion_perm fresh built
  have attachedNode : ∀ p, attached (heapOf family) MAX_PROCESSES (.process p) =
      (heapOf family (.process p)).map fun node => { node with
        children := node.children ++
          ((List.range 6).filter (childOf (heapOf family) p)).map .process } := by
    intro p
    rw [attached, heapOf_children bounded (by decide)]
  have first := build_children insertion_perm (by decide) ((attachedNode 1).trans rfl) built
  have second := build_children insertion_perm (by decide) ((attachedNode 2).trans rfl) built
  have third := build_children insertion_perm (by decide) ((attachedNode 3).trans rfl) built
  have fourth := build_children insertion_perm (by decide) ((attachedNode 4).trans rfl) built
  have order : insertion (compareAt (attached (heapOf family) MAX_PROCESSES) (ordering byPid))
      [.process 2, .process 3, .process 4] = [.process 2, .process 3, .process 4] := by
    refine @insertion_byPid _ [2, 3, 4] (by decide) ?_
    exact List.forall_mem_cons.mpr ⟨⟨_, (attachedNode 2).trans rfl, rfl⟩, List.forall_mem_cons.mpr
      ⟨⟨_, (attachedNode 3).trans rfl, rfl⟩, List.forall_mem_singleton.mpr
        ⟨_, (attachedNode 4).trans rfl, rfl⟩⟩⟩
  have init : tree initRef = some ⟨1, 0, [105], [], [.process 2, .process 3, .process 4]⟩ :=
    first.trans (congrArg (fun cs => some (ProcessNode.mk 1 0 [105] [] cs)) order)
  have leaf : ∀ r ∈ [NodeRef.process 3, .process 4], leafNamed tree [97] r = true := by
    intro r member
    rcases List.mem_cons.mp member with rfl | member
    · rw [leafNamed, third]
      rfl
    · rw [List.mem_singleton.mp member, leafNamed, fourth]
      rfl
  have parent : childrenOf tree (.process 2) = [.process 5] := by
    rw [childrenOf, second]
    rfl
  have name : nameOf tree (.process 2) = [97] := by
    rw [nameOf, second]
    rfl
  have compact : byPid.show_compact = true := rfl
  obtain ⟨after, lines, ran, shows, covers⟩ := prints_reachable linked init
    (acyclic_of_root fresh same rfl le_rfl) compact ⟨fun _ => false, []⟩
  refine ⟨tree, built, _, after, lines, init, ran, shows, fun covered => ?_⟩
  have fair := (covers.mp covered).2 initRef _ List.mem_cons_self init
  have front := fair.together.2
  rw [if_neg (by rw [parent]; exact List.cons_ne_nil _ _), name, List.countP_eq_length.mpr leaf] at front
  exact absurd front (by decide)

end Csc3150.Pstree
