/-
**Reading a `stat` line.**

`read_process_info` scans `/proc/<pid>/stat` with the format `"%d %s %*c %d"`. The name stands between
parentheses there and is scanned as a word.

* `fscanf_stat` — what the conversions store, up to the first one that does not match;
* `fscanf_stat_line` — a line whose name is a word is scanned exactly;
* `stat_exact_iff` — the node has the pid, the name and the parent of the line exactly when the name has
  no white space (and there is room for the node).
-/

import Csc3150.Pstree.Model
import Mathlib.Data.List.Basic
import Mathlib.Data.List.DropRight
import Mathlib.Data.List.TakeWhile

namespace Csc3150.Pstree

/-! ### `fscanf` -/

/-- White space in a format. -/
def skip (input : Text) : Text := input.dropWhile isspace

def isdigit (c : UInt8) : Bool := 48 ≤ c && c ≤ 57

def digitsValue (digits : Text) : Nat := digits.foldl (fun n c => 10 * n + (c.toNat - 48)) 0

/-- The digits of `%d`, and what is left of the input. -/
def scanDigits (negative : Bool) (input : Text) : Option (Int × Text) :=
  if input.takeWhile isdigit = [] then none
  else
    let value : Int := digitsValue (input.takeWhile isdigit)
    some (if negative then -value else value, input.dropWhile isdigit)

/-- `%d` -/
def scanInt (input : Text) : Option (Int × Text) :=
  let input := skip input
  let sign := input.headD 0
  if sign = 45 then scanDigits true (input.drop 1)
  else if sign = 43 then scanDigits false (input.drop 1)
  else scanDigits false input

/-- `%s` -/
def scanWord (input : Text) : Option (Text × Text) :=
  if (skip input).takeWhile (!isspace ·) = [] then none
  else some ((skip input).takeWhile (!isspace ·), (skip input).dropWhile (!isspace ·))

/-- `%*c` -/
def scanChar : Text → Option Text
  | [] => none
  | _ :: rest => some rest

/-- The variables that are assigned. -/
structure Stat where
  pid : Option Int
  name : Option Text
  ppid : Option Int
  deriving DecidableEq

/-- `fscanf(stat_file, "%d %s %*c %d", &pid, name, &ppid)` -/
def fscanf_stat (line : Text) : Stat :=
  match scanInt line with
  | none => ⟨none, none, none⟩
  | some (pid, rest) =>
    match scanWord (skip rest) with
    | none => ⟨some pid, none, none⟩
    | some (name, rest) =>
      match (scanChar (skip rest)).bind fun rest => scanInt (skip rest) with
      | none => ⟨some pid, some name, none⟩
      | some (ppid, _) => ⟨some pid, some name, some ppid⟩

/-- `read_process_info(dir)` with this `stat` file. A variable that is not assigned keeps what it had:
`dir`, and what was on the stack. -/
def read_process_stat (opts : Options) (junk : NodeRef → Text) (heap : Heap) (dir : Nat) (line : Text)
    (stack : Text × Int) (cmdline : Text) (threads : List (Int × Text)) : Except Fault Heap :=
  let stat := fscanf_stat line
  let pid := stat.pid.getD dir
  if pid < 0 then .error .process_tree
  else read_process_info opts junk heap
    ⟨pid.toNat, stat.ppid.getD stack.2, stat.name.getD stack.1, cmdline, threads⟩

/-! ### Scanning what was printed -/

section Scanning

variable {s rest : Text}

theorem skip_space (rest : Text) : skip (32 :: rest) = skip rest :=
  List.dropWhile_cons_of_pos (by decide)

theorem skip_cons {c : UInt8} (visible : isspace c = false) (rest : Text) :
    skip (c :: rest) = c :: rest :=
  List.dropWhile_cons_of_neg (by rw [visible]; exact Bool.false_ne_true)

theorem skip_skip (s : Text) : skip (skip s) = skip s := List.dropWhile_idempotent _ s

/-- The digits that `"%d"` prints. -/
def digits (n : Nat) : Text := (Nat.toDigits 10 n).map fun c => c.toNat.toUInt8

theorem decimal_eq (n : Int) : decimal n = (if n < 0 then [45] else []) ++ digits n.natAbs := rfl

/-- The bytes of a digit. -/
theorem digit_byte {c : Char} (isDigit : c.isDigit = true) :
    isdigit c.toNat.toUInt8 = true ∧ c.toNat.toUInt8.toNat = c.toNat := by
  rw [Char.isDigit, Bool.and_eq_true, decide_eq_true_iff, decide_eq_true_iff] at isDigit
  have low : 48 ≤ c.toNat := isDigit.1
  have high : c.toNat ≤ 57 := isDigit.2
  have same : c.toNat.toUInt8.toNat = c.toNat := Nat.mod_eq_of_lt (by omega)
  refine ⟨?_, same⟩
  rw [isdigit, Bool.and_eq_true, decide_eq_true_iff, decide_eq_true_iff, UInt8.le_iff_toNat_le,
    UInt8.le_iff_toNat_le, same]
  exact ⟨low, high⟩

theorem isdigit_digits {n : Nat} : ∀ c ∈ digits n, isdigit c = true := by
  intro c member
  obtain ⟨d, isD, rfl⟩ := List.mem_map.mp member
  exact (digit_byte (Nat.isDigit_of_mem_toDigits (by decide) (by decide) isD)).1

/-- The number that the digits stand for. -/
theorem digits_value (n : Nat) : digitsValue (digits n) = n := by
  rw [digitsValue, digits, List.foldl_map]
  refine Eq.trans ?_ (@Nat.ofDigitChars_ten_toDigits n)
  rw [Nat.ofDigitChars_eq_foldl]
  refine List.foldl_ext _ _ _ fun sum c member => ?_
  rw [(digit_byte (Nat.isDigit_of_mem_toDigits (by decide) (by decide) member)).2]
  rfl

theorem digits_ne_nil (n : Nat) : digits n ≠ [] := fun empty =>
  Nat.toDigits_ne_nil (List.map_eq_nil_iff.mp empty)

theorem scanDigits_digits (negative : Bool) (n : Nat) (rest : Text) :
    scanDigits negative (digits n ++ 32 :: rest) =
      some (if negative then -(n : Int) else n, 32 :: rest) := by
  have taken : (digits n ++ 32 :: rest).takeWhile isdigit = digits n := by
    rw [List.takeWhile_append_of_pos isdigit_digits, List.takeWhile_cons_of_neg (by decide),
      List.append_nil]
  have left : (digits n ++ 32 :: rest).dropWhile isdigit = 32 :: rest := by
    rw [List.dropWhile_append_of_pos isdigit_digits, List.dropWhile_cons_of_neg (by decide)]
  rw [scanDigits, taken, left, if_neg (digits_ne_nil n), digits_value]

/-- The first digit of a number is neither white space nor a sign. -/
theorem isdigit_front {c : UInt8} (digit : isdigit c = true) :
    isspace c = false ∧ c ≠ 45 ∧ c ≠ 43 := by
  rw [isdigit, Bool.and_eq_true, decide_eq_true_iff, decide_eq_true_iff, UInt8.le_iff_toNat_le,
    UInt8.le_iff_toNat_le] at digit
  have low : 48 ≤ c.toNat := digit.1
  refine ⟨?_, ?_, ?_⟩
  · rw [isspace, Bool.or_eq_false_iff, decide_eq_false_iff_not, Bool.and_eq_false_iff]
    refine ⟨?_, Or.inr (decide_eq_false_iff_not.mpr ?_)⟩
    · rintro rfl
      exact absurd low (by decide)
    · rw [UInt8.le_iff_toNat_le]
      exact Nat.not_le.mpr (lt_of_lt_of_le (by decide) low)
  · rintro rfl
    exact absurd low (by decide)
  · rintro rfl
    exact absurd low (by decide)

/-- A number is scanned as it was printed. -/
theorem scanInt_decimal (n : Int) (rest : Text) :
    scanInt (decimal n ++ 32 :: rest) = some (n, 32 :: rest) := by
  rw [decimal_eq, scanInt]
  by_cases negative : n < 0
  · have front : skip ([45] ++ digits n.natAbs ++ 32 :: rest) = 45 :: (digits n.natAbs ++ 32 :: rest) :=
      skip_cons (by decide) _
    rw [if_pos negative, front]
    show scanDigits true (digits n.natAbs ++ 32 :: rest) = _
    rw [scanDigits_digits, if_pos rfl]
    exact congrArg (fun m => some (m, _)) (by omega)
  · obtain ⟨d, ds, isDigits⟩ := List.exists_cons_of_ne_nil (digits_ne_nil n.natAbs)
    obtain ⟨visible, noMinus, noPlus⟩ :=
      isdigit_front (isdigit_digits d (by rw [isDigits]; exact List.mem_cons_self))
    have front : skip ([] ++ digits n.natAbs ++ 32 :: rest) = digits n.natAbs ++ 32 :: rest := by
      rw [List.nil_append, isDigits]
      exact skip_cons visible _
    have unsigned : (digits n.natAbs ++ 32 :: rest).headD 0 = d := by
      rw [isDigits]
      rfl
    rw [if_neg negative, front]
    show (if (digits n.natAbs ++ 32 :: rest).headD 0 = 45 then _ else
      if (digits n.natAbs ++ 32 :: rest).headD 0 = 43 then _ else _) = _
    rw [unsigned, if_neg noMinus, if_neg noPlus, scanDigits_digits]
    exact congrArg (fun m => some (m, _)) (by rw [if_neg Bool.false_ne_true]; omega)

/-- A word in front of white space is scanned whole. -/
theorem scanWord_append {word : Text} (visible : ∀ c ∈ word, isspace c = false) (nonempty : word ≠ [])
    (rest : Text) : scanWord (word ++ 32 :: rest) = some (word, 32 :: rest) := by
  have all : ∀ c ∈ word, (!isspace c) = true := fun c member => by rw [visible c member]; rfl
  obtain ⟨c, cs, isWord⟩ := List.exists_cons_of_ne_nil nonempty
  have front : skip (word ++ 32 :: rest) = word ++ 32 :: rest := by
    rw [isWord]
    exact skip_cons (visible c (by rw [isWord]; exact List.mem_cons_self)) _
  have taken : (word ++ 32 :: rest).takeWhile (!isspace ·) = word := by
    rw [List.takeWhile_append_of_pos all, List.takeWhile_cons_of_neg (by decide), List.append_nil]
  have left : (word ++ 32 :: rest).dropWhile (!isspace ·) = 32 :: rest := by
    rw [List.dropWhile_append_of_pos all, List.dropWhile_cons_of_neg (by decide)]
  rw [scanWord, front, taken, left, if_neg nonempty]

/-- What is scanned as a word has no white space. -/
theorem scanWord_visible {word : Text} (scanned : scanWord s = some (word, rest)) :
    ∀ c ∈ word, isspace c = false := by
  unfold scanWord at scanned
  split_ifs at scanned
  cases scanned
  intro c member
  have visible := List.mem_takeWhile_imp (p := fun c => !isspace c) member
  rwa [Bool.not_eq_true'] at visible

end Scanning

/-! ### The line of a process -/

/-- `<pid> (<name>) <state> <ppid> ...` -/
def statLine (pid : Nat) (name : Text) (state : UInt8) (ppid : Int) (rest : Text) : Text :=
  decimal pid ++ 32 :: 40 :: (name ++ 41 :: 32 :: state :: 32 :: (decimal ppid ++ 32 :: rest))

/-- A name that the kernel gives a process. -/
structure CommName (name : Text) : Prop where
  nonempty : name ≠ []
  short : name.length ≤ 15
  bytes : ∀ c ∈ name, c ≠ 0 ∧ c ≠ 10

section Lines

variable {pid : Nat} {name : Text} {state : UInt8} {ppid : Int} {rest : Text}

/-- The pid is scanned, and then a word without white space. -/
theorem fscanf_stat_word : ∃ word ppid', (∀ c ∈ word, isspace c = false) ∧
    fscanf_stat (statLine pid name state ppid rest) = ⟨some pid, some word, ppid'⟩ := by
  have front : ∀ s, skip (skip (32 :: 40 :: s)) = 40 :: s := fun s => by
    rw [skip_space, skip_cons (by decide), skip_cons (by decide)]
  rw [fscanf_stat, statLine, scanInt_decimal]
  dsimp only
  cases scanned : scanWord (skip (32 :: 40 :: (name ++ 41 :: 32 :: state :: 32 ::
      (decimal ppid ++ 32 :: rest)))) with
  | none =>
    rw [scanWord, front, List.takeWhile_cons_of_pos (by decide), if_neg (List.cons_ne_nil _ _)] at scanned
    cases scanned
  | some both =>
    obtain ⟨word, left⟩ := both
    have visible := scanWord_visible scanned
    dsimp only
    split
    · exact ⟨word, none, visible, rfl⟩
    · next found _ _ => exact ⟨word, some _, visible, rfl⟩

/-- A line whose name has no white space is scanned exactly. -/
theorem fscanf_stat_line (visible : ∀ c ∈ name, isspace c = false) (letter : isspace state = false) :
    fscanf_stat (statLine pid name state ppid rest) =
      ⟨some pid, some (40 :: (name ++ [41])), some ppid⟩ := by
  have word : ∀ s, scanWord (skip (32 :: 40 :: (name ++ 41 :: 32 :: s))) =
      some (40 :: (name ++ [41]), 32 :: s) := by
    intro s
    rw [skip_space, skip_cons (by decide)]
    have whole : ∀ c ∈ 40 :: (name ++ [41]), isspace c = false := by
      intro c member
      rcases List.mem_cons.mp member with rfl | member
      · decide
      · rcases List.mem_append.mp member with inName | last
        · exact visible c inName
        · rw [List.mem_singleton.mp last]
          decide
    have split : 40 :: (name ++ 41 :: 32 :: s) = 40 :: (name ++ [41]) ++ 32 :: s := by
      rw [List.cons_append, List.append_assoc]
      rfl
    rw [split]
    exact scanWord_append whole (List.cons_ne_nil _ _) s
  rw [fscanf_stat, statLine, scanInt_decimal]
  dsimp only
  rw [word]
  dsimp only
  rw [skip_space, skip_cons letter, scanChar, Option.bind_some, skip_space]
  have number : scanInt (skip (decimal ppid ++ 32 :: rest)) = some (ppid, 32 :: rest) := by
    have same : scanInt (skip (decimal ppid ++ 32 :: rest)) = scanInt (decimal ppid ++ 32 :: rest) := by
      rw [scanInt, scanInt, skip_skip]
    rw [same, scanInt_decimal]
  rw [number]

/-- The parentheses are taken off. -/
theorem clean_parentheses : clean_process_name (40 :: (name ++ [41])) = name := by
  show (if (40 : UInt8) = 40 ∨ (40 : UInt8) = 91 then (name ++ [41]).dropLast else _) = name
  rw [if_pos (Or.inl rfl)]
  exact List.dropLast_concat

theorem clean_subset {word : Text} : clean_process_name word ⊆ word := by
  rw [clean_process_name]
  split_ifs
  · exact List.Subset.trans (List.dropLast_subset _) (List.drop_subset 1 word)
  · exact List.Subset.refl word

/-! ### The node of a process -/

/-- There is a node for the process, with these fields. -/
def Yields (run : Except Fault Heap) (pid : Nat) (name : Text) (ppid : Int) : Prop :=
  ∃ after node, run = .ok after ∧ after (.process pid) = some node ∧
    node.pid = pid ∧ node.name = name ∧ node.ppid = ppid

/-- The node that is made. -/
theorem read_process_info_node {opts : Options} {junk : NodeRef → Text} {heap after : Heap} {proc : Proc}
    {node : ProcessNode} (run : read_process_info opts junk heap proc = .ok after)
    (isNode : after (.process proc.pid) = some node) :
    node.pid = proc.pid ∧ node.ppid = proc.ppid ∧
      node.name = snprintf (MAX_NAME_LEN + 2) (clean_process_name proc.name) := by
  unfold read_process_info at run
  dsimp only at run
  split_ifs at run
  all_goals
    cases run
    dsimp only at isNode
    rw [if_pos rfl] at isNode
    cases isNode
    exact ⟨rfl, rfl, rfl⟩

/-- The node is made when there is room for it, with the name without its parentheses. -/
theorem yields_iff {opts : Options} {junk : NodeRef → Text} {heap : Heap} {proc : Proc} :
    Yields (read_process_info opts junk heap proc) proc.pid name proc.ppid ↔
      snprintf (MAX_NAME_LEN + 2) (clean_process_name proc.name) = name ∧ proc.pid < MAX_PROCESSES ∧
        (opts.show_threads = true → proc.threads.length ≤ MAX_CHILDREN) := by
  unfold read_process_info
  dsimp only
  by_cases outside : MAX_PROCESSES ≤ proc.pid
  · rw [if_pos outside]
    refine iff_of_false ?_ fun both => Nat.not_lt.mpr outside both.2.1
    rintro ⟨_, _, impossible, -⟩
    cases impossible
  · rw [if_neg outside]
    have shown : MAX_CHILDREN < (if opts.show_threads = true then proc.threads else []).length ↔
        ¬(opts.show_threads = true → proc.threads.length ≤ MAX_CHILDREN) := by
      by_cases threads : opts.show_threads = true
      · rw [if_pos threads, imp_iff_right threads, not_le]
      · rw [if_neg threads]
        exact iff_of_false (Nat.not_lt_zero _) (not_not.mpr fun shows => absurd shows threads)
    by_cases many : MAX_CHILDREN < (if opts.show_threads = true then proc.threads else []).length
    · rw [if_pos many]
      refine iff_of_false ?_ fun both => shown.mp many both.2.2
      rintro ⟨_, _, impossible, -⟩
      cases impossible
    · rw [if_neg many]
      have few := not_not.mp (mt shown.mpr many)
      constructor
      · rintro ⟨after, node, run, isNode, -, isName, -⟩
        cases run
        dsimp only at isNode
        rw [if_pos rfl] at isNode
        cases isNode
        exact ⟨isName, Nat.not_le.mp outside, few⟩
      · rintro ⟨isName, -, -⟩
        exact ⟨_, _, rfl, if_pos rfl, rfl, isName, rfl⟩

/-- **The line is parsed back exactly when the name has no white space**, and there is room for the node
and its threads. -/
theorem stat_exact_iff {opts : Options} {junk : NodeRef → Text} {heap : Heap} {dir : Nat} {stack : Text × Int}
    {cmdline : Text} {threads : List (Int × Text)} (isName : CommName name)
    (letter : isspace state = false) :
    Yields (read_process_stat opts junk heap dir (statLine pid name state ppid rest) stack cmdline threads)
        pid name ppid ↔
      (∀ c ∈ name, isspace c = false) ∧ pid < MAX_PROCESSES ∧
        (opts.show_threads = true → threads.length ≤ MAX_CHILDREN) := by
  have room : ∀ name' ppid', Yields (read_process_info opts junk heap ⟨pid, ppid', name', cmdline, threads⟩)
      pid name ppid' ↔ snprintf (MAX_NAME_LEN + 2) (clean_process_name name') = name ∧
        pid < MAX_PROCESSES ∧ (opts.show_threads = true → threads.length ≤ MAX_CHILDREN) :=
    fun name' ppid' => yields_iff
  obtain ⟨word, ppid', wordVisible, scanned⟩ :=
    @fscanf_stat_word pid name state ppid rest
  have read : read_process_stat opts junk heap dir (statLine pid name state ppid rest) stack cmdline
      threads = read_process_info opts junk heap
        ⟨pid, ppid'.getD stack.2, word, cmdline, threads⟩ := by
    rw [read_process_stat, scanned]
    dsimp only [Option.getD_some]
    rw [if_neg (Int.not_lt.mpr (Int.natCast_nonneg pid)), Int.toNat_natCast]
  rw [read]
  by_cases visible : ∀ c ∈ name, isspace c = false
  · have exact := scanned.symm.trans (fscanf_stat_line visible letter)
    cases exact
    have whole : snprintf (MAX_NAME_LEN + 2) (clean_process_name (40 :: (name ++ [41]))) = name := by
      rw [clean_parentheses, snprintf, List.take_of_length_le]
      exact le_trans isName.short (by decide)
    rw [Option.getD_some, room, and_iff_right whole, and_iff_right visible]
  · refine iff_of_false ?_ fun both => visible both.1
    rintro ⟨after, node, run, isNode, -, sameName, -⟩
    obtain ⟨-, -, stored⟩ := read_process_info_node run isNode
    refine visible fun c member => ?_
    rw [← sameName, stored] at member
    exact wordVisible c (clean_subset (List.take_subset _ _ member))

/-- The flags as they are at the start. -/
def startOptions : Options := ⟨true, false, false, true, false, false, true, false⟩

/-- "init", the first process. -/
theorem stat_exact_init : Yields (read_process_stat startOptions (fun _ => []) (fun _ => none) 1
    (statLine 1 [105, 110, 105, 116] 83 0 []) ([], 0) [] []) 1 [105, 110, 105, 116] 0 :=
  (stat_exact_iff ⟨by decide, by decide, by decide +kernel⟩ (by decide)).mpr
    ⟨by decide +kernel, by decide, fun _ => by decide⟩

/-- A process named "a b": the word "(a" is scanned, which is cut down to nothing, and the parent is not
scanned. -/
theorem stat_line_split : CommName [97, 32, 98] ∧
    fscanf_stat (statLine 7 [97, 32, 98] 83 1 [48]) = ⟨some 7, some [40, 97], none⟩ ∧
    ¬Yields (read_process_stat startOptions (fun _ => []) (fun _ => none) 7
      (statLine 7 [97, 32, 98] 83 1 [48]) ([], 0) [] []) 7 [97, 32, 98] 1 := by
  have scanned : fscanf_stat (statLine 7 [97, 32, 98] 83 1 [48]) = ⟨some 7, some [40, 97], none⟩ := by
    decide +kernel
  refine ⟨⟨by decide, by decide, by decide +kernel⟩, scanned, ?_⟩
  rintro ⟨after, node, run, isNode, -, sameName, -⟩
  have read : read_process_info startOptions (fun _ => []) (fun _ => none) ⟨7, 0, [40, 97], [], []⟩ =
      .ok after := by
    rw [← run, read_process_stat, scanned]
    rfl
  obtain ⟨-, -, stored⟩ := read_process_info_node read isNode
  rw [stored] at sameName
  exact absurd sameName (by decide)

end Lines

end Csc3150.Pstree
