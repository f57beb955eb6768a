/-
**File names, directory entries and path elements.**

A `char *` that a function reads is a byte at every index here, and a path is the list of bytes behind
the pointer; the string ends at the first zero byte, or where the list does. A name of a directory entry
is read up to `DIRSIZ` bytes or the first zero byte, and that is its `key`.

* `namecmp_eq_zero` — `namecmp` compares the keys;
* `strncpy_key` — `strncpy` stores the key;
* `Dirent.ofBytes_toBytes` — a directory entry that was stored reads back;
* `skipelem_eq_none`, `skipelem_eq_some` — `skipelem` takes the first of the `components` of a path.
-/

import Csc3150.FileSystem.Disk
import Csc3150.Library.Search

namespace Csc3150.Namespace

open ByteBuffer FileSystem

/-- Bytes of a name in a directory entry. -/
def DIRSIZ : Nat := 14

/-- `sizeof(struct dirent)`. -/
def direntSize : Nat := 16

/-- What a `char *` points to. -/
abbrev Name := Buffer

/-! ### `string.c` -/

/-- The loop of `strncmp`, at index `i` with `n` bytes to go. -/
def strncmpFrom (s t : Name) : (n i : Nat) → Int
  | 0, _ => 0
  | n + 1, i =>
    if s i ≠ 0 ∧ s i = t i then strncmpFrom s t n (i + 1) else (s i).toNat - (t i).toNat

/-- Compare at most `n` bytes of two strings. -/
def strncmp (s t : Name) (n : Nat) : Int := strncmpFrom s t n 0

/-- The second loop of `strncpy`. -/
def zeroFrom : (n i : Nat) → Name → Name
  | 0, _, s => s
  | n + 1, i, s => zeroFrom n (i + 1) (Function.update s i 0)

/-- The first loop of `strncpy`, at index `i` with `n` bytes to go. -/
def strncpyFrom (t : Name) : (n i : Nat) → Name → Name
  | 0, _, s => s
  | n + 1, i, s =>
    if t i ≠ 0 then strncpyFrom t n (i + 1) (Function.update s i (t i))
    else zeroFrom n (i + 1) (Function.update s i (t i))

/-- Copy at most `n` bytes of a string, and fill up with zeros. -/
def strncpy (s t : Name) (n : Nat) : Name := strncpyFrom t n 0 s

/-- Compare two names. -/
def namecmp (s t : Name) : Int := strncmp s t DIRSIZ

/-! ### Keys -/

/-- The bytes of a name that count: the first `DIRSIZ`, up to the first zero byte. -/
def key (name : Name) : List UInt8 := (read name 0 DIRSIZ).takeWhile (· ≠ 0)

theorem read_succ (buffer : Buffer) (start count : Nat) :
    read buffer start (count + 1) = buffer start :: read buffer (start + 1) count := by
  unfold ByteBuffer.read
  rw [List.range_succ_eq_map, List.map_cons, List.map_map, Nat.add_zero]
  congr 1
  refine List.map_congr_left fun index _ => ?_
  show buffer (start + (index + 1)) = buffer (start + 1 + index)
  congr 1
  omega

theorem strncmpFrom_eq_zero (s t : Name) (n i : Nat) : strncmpFrom s t n i = 0 ↔
    (read s i n).takeWhile (· ≠ 0) = (read t i n).takeWhile (· ≠ 0) := by
  induction n generalizing i with
  | zero => exact iff_of_true rfl rfl
  | succ n ih =>
    rw [strncmpFrom, read_succ, read_succ, List.takeWhile_cons, List.takeWhile_cons]
    by_cases same : s i = t i
    · rw [same]
      by_cases zero : t i = 0
      · rw [if_neg fun both => both.1 zero]
        simp [zero]
      · rw [if_pos ⟨zero, rfl⟩, ih]
        simp [zero]
    · have apart : (s i).toNat ≠ (t i).toNat := fun equal => same (UInt8.toNat_inj.mp equal)
      rw [if_neg fun both => same both.2]
      refine iff_of_false (by omega) ?_
      by_cases zero : s i = 0
      · have nonzero : t i ≠ 0 := fun equal => same (zero.trans equal.symm)
        simp [zero, nonzero]
      · by_cases zero' : t i = 0
        · simp [zero, zero']
        · simp [zero, zero', same]

/-- `namecmp` compares the keys. -/
theorem namecmp_eq_zero (s t : Name) : namecmp s t = 0 ↔ key s = key t :=
  strncmpFrom_eq_zero s t DIRSIZ 0

theorem zeroFrom_eq (n i : Nat) (s : Name) (k : Nat) :
    zeroFrom n i s k = if i ≤ k ∧ k < i + n then 0 else s k := by
  induction n generalizing i s with
  | zero => exact (if_neg (by omega)).symm
  | succ n ih =>
    rw [zeroFrom, ih]
    by_cases here : k = i
    · subst here
      rw [if_neg (by omega), if_pos (by omega), Function.update_self]
    · rw [Function.update_of_ne here]
      congr 1
      exact propext ⟨fun _ => by omega, fun _ => by omega⟩

theorem strncpyFrom_before (t : Name) (n i : Nat) (s : Name) {k : Nat} (before : k < i) :
    strncpyFrom t n i s k = s k := by
  induction n generalizing i s with
  | zero => rfl
  | succ n ih =>
    rw [strncpyFrom]
    split_ifs
    · rw [ih _ _ (by omega), Function.update_of_ne (by omega)]
    · rw [zeroFrom_eq, if_neg (by omega), Function.update_of_ne (by omega)]

theorem strncpyFrom_key (t : Name) (n i : Nat) (s : Name) :
    (read (strncpyFrom t n i s) i n).takeWhile (· ≠ 0) = (read t i n).takeWhile (· ≠ 0) := by
  induction n generalizing i s with
  | zero => rfl
  | succ n ih =>
    rw [read_succ, read_succ, strncpyFrom]
    by_cases zero : t i = 0
    · rw [if_neg (not_not.mpr zero), zeroFrom_eq, if_neg (by omega), Function.update_self]
      simp [zero]
    · rw [if_pos zero, strncpyFrom_before _ _ _ _ (Nat.lt_succ_self i), Function.update_self]
      simp only [List.takeWhile_cons, ih]

/-- `strncpy` stores the key, whatever the buffer held. -/
theorem strncpy_key (s t : Name) : key (strncpy s t DIRSIZ) = key t :=
  strncpyFrom_key t DIRSIZ 0 s

/-! ### Directory entries -/

/-- A directory entry. -/
structure Dirent where
  inum : Nat
  name : Name

namespace Dirent

/-- The entry in the bytes of a `struct dirent`. -/
def ofBytes (bytes : List UInt8) : Dirent where
  inum := getLE (fun i => bytes[i]?.getD 0) 0 2
  name i := bytes[2 + i]?.getD 0

/-- The bytes of a `struct dirent`; `inum` is a `ushort`. -/
def toBytes (de : Dirent) : List UInt8 :=
  read (putLE (fun i => de.name (i - 2)) 0 2 de.inum) 0 direntSize

@[simp] theorem toBytes_length (de : Dirent) : de.toBytes.length = direntSize := read_length _ _ _

theorem toBytes_getElem? (de : Dirent) {i : Nat} (inside : i < direntSize) :
    de.toBytes[i]? = some (putLE (fun i => de.name (i - 2)) 0 2 de.inum i) := by
  rw [toBytes, read_getElem? _ _ inside, Nat.zero_add]

/-- A stored entry reads back: its number cut to 16 bits, and its key. -/
theorem ofBytes_toBytes (de : Dirent) :
    (ofBytes de.toBytes).inum = de.inum % 2 ^ 16 ∧ key (ofBytes de.toBytes).name = key de.name := by
  constructor
  · refine Eq.trans (getLE_congr ?_) (getLE_putLE (fun i => de.name (i - 2)) 0 2 de.inum)
    intro i _ upper
    rw [toBytes_getElem? _ (by unfold direntSize; omega), Option.getD_some]
  · rw [key, key]
    refine congrArg _ (List.map_congr_left fun i member => ?_)
    have inside : i < DIRSIZ := List.mem_range.mp member
    unfold DIRSIZ at inside
    show (toBytes de)[2 + (0 + i)]?.getD 0 = _
    rw [toBytes_getElem? _ (by unfold direntSize; omega), Option.getD_some,
      putLE_outside (by omega), show 2 + (0 + i) - 2 = 0 + i by omega]

/-- A zeroed entry is free. -/
theorem ofBytes_zero : (ofBytes (List.replicate direntSize 0)).inum = 0 := by
  decide

end Dirent

/-! ### Path elements -/

/-- `'/'`. -/
def slash : UInt8 := 47

/-- Does the scan over a path element go on at `c`? -/
def inElement (c : UInt8) : Bool := c ≠ slash ∧ c ≠ 0

/-- Copy the next path element from `path` into `name`, and return what follows it. -/
def skipelem (path : List UInt8) (name : Name) : Option (List UInt8 × Name) :=
  let path := path.dropWhile (· = slash)
  if path.headD 0 = 0 then none
  else
    let s := path.takeWhile inElement
    let path := path.dropWhile inElement
    let len := s.length
    let name := if DIRSIZ ≤ len then write name 0 (s.take DIRSIZ)
      else Function.update (write name 0 s) len 0
    some (path.dropWhile (· = slash), name)

/-- The elements of a path: its non-empty segments between slashes, each cut to `DIRSIZ` bytes. -/
def components (path : List UInt8) : List (List UInt8) :=
  (((path.takeWhile (· ≠ 0)).splitOn slash).filter (· ≠ [])).map (·.take DIRSIZ)

theorem components_slash (path : List UInt8) : components (slash :: path) = components path := by
  have string : (slash :: path).takeWhile (· ≠ 0) = slash :: path.takeWhile (· ≠ 0) :=
    List.takeWhile_cons_of_pos (by decide)
  have split := List.splitOn_append_cons_self (a := slash) [] (path.takeWhile (· ≠ 0))
  rw [components, string]
  rw [List.nil_append] at split
  rw [split]
  rfl

theorem components_dropSlashes (path : List UInt8) :
    components (path.dropWhile (· = slash)) = components path := by
  induction path with
  | nil => rfl
  | cons c path ih =>
    by_cases here : c = slash
    · subst here
      rw [List.dropWhile_cons_of_pos (by decide), ih, components_slash]
    · rw [List.dropWhile_cons_of_neg (by simpa using here)]

/-- A path that begins with an element. -/
theorem components_element {s rest : List UInt8} (some : s ≠ [])
    (element : ∀ c ∈ s, c ≠ slash ∧ c ≠ 0) (stops : rest.headD 0 = slash ∨ rest.headD 0 = 0) :
    components (s ++ rest) = s.take DIRSIZ :: components rest := by
  have front : ∀ c ∈ s, decide (c ≠ 0) = true := fun c member => by
    simpa using (element c member).2
  have noSlash : slash ∉ s := fun member => (element slash member).1 rfl
  rw [components, List.takeWhile_append_of_pos front]
  cases rest with
  | nil =>
    rw [List.takeWhile_nil, List.append_nil, List.splitOn_eq_singleton noSlash]
    simp [some, components]
  | cons c rest =>
    rcases stops with here | here
    · obtain rfl : c = slash := here
      rw [List.takeWhile_cons_of_pos (by decide), List.splitOn_append_cons_self_of_not_mem noSlash,
        components_slash, components]
      simp [some]
    · obtain rfl : c = 0 := here
      rw [List.takeWhile_cons_of_neg (by decide), List.append_nil,
        List.splitOn_eq_singleton noSlash, components, List.takeWhile_cons_of_neg (by decide)]
      simp [some]

/-- A string that is at its end has no element. -/
theorem components_end {path : List UInt8} (atEnd : path.headD 0 = 0) : components path = [] := by
  cases path with
  | nil => rfl
  | cons c path =>
    obtain rfl : c = 0 := atEnd
    rw [components, List.takeWhile_cons_of_neg (by decide)]
    rfl

theorem inElement_iff {c : UInt8} : inElement c = true ↔ c ≠ slash ∧ c ≠ 0 := decide_eq_true_iff

theorem mem_element {path : List UInt8} {c : UInt8} (member : c ∈ path.takeWhile inElement) :
    c ≠ slash ∧ c ≠ 0 :=
  inElement_iff.mp (List.all_eq_true.mp List.all_takeWhile c member)

/-- The first element of a path without leading slashes, and what follows. -/
theorem element_split {path : List UInt8} (noSlash : path.headD 0 ≠ slash)
    (more : path.headD 0 ≠ 0) :
    components path =
      (path.takeWhile inElement).take DIRSIZ :: components (path.dropWhile inElement) ∧
    (path.dropWhile inElement).length < path.length := by
  cases path with
  | nil => exact absurd rfl more
  | cons c path =>
    have first : inElement c = true := inElement_iff.mpr ⟨noSlash, more⟩
    have some : (c :: path).takeWhile inElement ≠ [] := by
      rw [List.takeWhile_cons_of_pos first]
      exact List.cons_ne_nil _ _
    have stops : ((c :: path).dropWhile inElement).headD 0 = slash ∨
        ((c :: path).dropWhile inElement).headD 0 = 0 := by
      cases rest : (c :: path).dropWhile inElement with
      | nil => exact Or.inr rfl
      | cons c' tail =>
        have here := List.head?_dropWhile_not inElement (c :: path)
        rw [rest] at here
        by_contra neither
        rw [not_or] at neither
        exact absurd (here.symm.trans (inElement_iff.mpr neither)) (by decide)
    constructor
    · have split := List.takeWhile_append_dropWhile (p := inElement) (l := c :: path)
      rw [← components_element some (fun _ => mem_element) stops, split]
    · rw [List.dropWhile_cons_of_pos first, List.length_cons]
      exact Nat.lt_succ_of_le (List.dropWhile_sublist _).length_le

theorem dropSlashes_headD (path : List UInt8) :
    (path.dropWhile (· = slash)).headD 0 ≠ slash := by
  cases rest : path.dropWhile (· = slash) with
  | nil => decide
  | cons c tail =>
    have here := List.head?_dropWhile_not (fun c => decide (c = slash)) path
    rw [rest] at here
    exact of_decide_eq_false here

theorem read_of_bytes {buffer : Buffer} {start : Nat} {bytes : List UInt8}
    (stored : ∀ i, i < bytes.length → some (buffer (start + i)) = bytes[i]?) :
    read buffer start bytes.length = bytes := by
  refine List.ext_getElem? fun i => ?_
  by_cases inside : i < bytes.length
  · rw [read_getElem? _ _ inside, stored i inside]
  · rw [List.getElem?_eq_none (by rw [read_length]; omega), List.getElem?_eq_none (by omega)]

theorem read_append (buffer : Buffer) (start m n : Nat) :
    read buffer start (m + n) = read buffer start m ++ read buffer (start + m) n := by
  unfold ByteBuffer.read
  rw [List.range_add, List.map_append, List.map_map]
  congr 1
  refine List.map_congr_left fun i _ => ?_
  exact congrArg buffer (Nat.add_assoc start m i).symm

/-- The name that `skipelem` stores reads back as the element, cut to `DIRSIZ` bytes. -/
theorem key_element {s : List UInt8} (nonzero : ∀ c ∈ s, c ≠ 0) (name : Name) :
    key (if DIRSIZ ≤ s.length then write name 0 (s.take DIRSIZ)
      else Function.update (write name 0 s) s.length 0) = s.take DIRSIZ := by
  by_cases long : DIRSIZ ≤ s.length
  · have length : (s.take DIRSIZ).length = DIRSIZ := by
      rw [List.length_take]
      omega
    have stored : read (write name 0 (s.take DIRSIZ)) 0 DIRSIZ = s.take DIRSIZ := by
      have here : read (write name 0 (s.take DIRSIZ)) 0 (s.take DIRSIZ).length =
          s.take DIRSIZ := by
        apply read_of_bytes
        intro i inside
        rw [write_inside _ (Nat.zero_le _) (by omega), List.getElem?_eq_getElem inside]
        simp only [Nat.zero_add, Nat.sub_zero]
      rwa [length] at here
    have whole : (s.take DIRSIZ).takeWhile (fun c => decide (c ≠ 0)) = s.take DIRSIZ := by
      have all : ∀ c ∈ s.take DIRSIZ, decide (c ≠ 0) = true := fun c member => by
        simpa using nonzero c (List.mem_of_mem_take member)
      have front := @List.takeWhile_append_of_pos _ _ _ [] all
      rwa [List.append_nil, List.takeWhile_nil, List.append_nil] at front
    rw [if_pos long, key, stored, whole]
  · have stored : read (Function.update (write name 0 s) s.length 0) 0 s.length = s :=
      read_of_bytes fun i inside => by
        rw [Function.update_of_ne (by omega), write_inside _ (Nat.zero_le _) (by omega),
          List.getElem?_eq_getElem inside]
        simp only [Nat.zero_add, Nat.sub_zero]
    obtain ⟨rest, total⟩ : ∃ rest, DIRSIZ = s.length + (rest + 1) :=
      ⟨DIRSIZ - s.length - 1, by omega⟩
    rw [if_neg long, key, List.take_of_length_le (by omega), total, read_append, stored, read_succ,
      List.takeWhile_append_of_pos fun c member => by simpa using nonzero c member,
      List.takeWhile_cons_of_neg (by rw [Nat.zero_add, Function.update_self]; decide),
      List.append_nil]

/-- `skipelem` finds no element exactly when there is none. -/
theorem skipelem_eq_none {path : List UInt8} {name : Name} :
    skipelem path name = none ↔ components path = [] := by
  rw [skipelem, ← components_dropSlashes]
  dsimp only
  by_cases atEnd : (path.dropWhile (· = slash)).headD 0 = 0
  · rw [if_pos atEnd]
    exact iff_of_true rfl (components_end atEnd)
  · rw [if_neg atEnd, (element_split (dropSlashes_headD path) atEnd).1]
    exact iff_of_false nofun nofun

/-- `skipelem` takes the first element, and what it returns tells whether it was the last one. -/
theorem skipelem_eq_some {path rest : List UInt8} {name name' : Name}
    (skipped : skipelem path name = some (rest, name')) :
    components path = key name' :: components rest ∧ rest.length < path.length ∧
      (rest.headD 0 = 0 ↔ components rest = []) := by
  rw [skipelem] at skipped
  dsimp only at skipped
  by_cases atEnd : (path.dropWhile (· = slash)).headD 0 = 0
  · rw [if_pos atEnd] at skipped
    cases skipped
  · rw [if_neg atEnd] at skipped
    obtain ⟨rfl, rfl⟩ := Prod.mk.inj (Option.some.inj skipped)
    obtain ⟨split, shorter⟩ := element_split (dropSlashes_headD path) atEnd
    refine ⟨?_, ?_, components_end, fun none => ?_⟩
    · rw [← components_dropSlashes path, split, key_element fun c member => (mem_element member).2,
        components_dropSlashes]
    · have front := (List.dropWhile_sublist (fun c => decide (c = slash)) (l := path)).length_le
      have tail := (List.dropWhile_sublist (fun c => decide (c = slash)) (l :=
        (path.dropWhile (· = slash)).dropWhile inElement)).length_le
      omega
    · by_contra more
      rw [(element_split (dropSlashes_headD _) more).1] at none
      cases none

end Csc3150.Namespace
