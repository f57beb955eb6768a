/-
**Directories as tables of entries.**

A directory is a file that holds a sequence of `struct dirent`; `entry bytes k` is what entry `k` says:
a key and an inode number, or nothing when its number is zero.

* `lookup_eq_some`, `lookup_eq_none` — the entry that `dirlookup` finds;
* `entry_link`, `entry_clear` — what storing and zeroing an entry does to the table.
-/

import Csc3150.Namespace.Name

namespace Csc3150.Namespace

open ByteBuffer FileSystem Search

/-- The entry at index `k` of a directory. -/
def direntAt (bytes : List UInt8) (k : Nat) : Dirent :=
  .ofBytes ((bytes.drop (direntSize * k)).take direntSize)

/-- The number of entries, used or free. -/
def slots (bytes : List UInt8) : Nat := bytes.length / direntSize

/-- What entry `k` says. -/
def entry (bytes : List UInt8) (k : Nat) : Option (List UInt8 × Nat) :=
  if k < slots bytes ∧ (direntAt bytes k).inum ≠ 0 then
    some (key (direntAt bytes k).name, (direntAt bytes k).inum)
  else none

/-- The first entry with this key: its inode number and its index. -/
def lookup (bytes name : List UInt8) : Option (Nat × Nat) :=
  search (fun k => if (entry bytes k).map Prod.fst = some name
    then (entry bytes k).map fun e => (e.2, k) else none) (slots bytes) 0

/-- The index at which a new entry is stored: the first free one, or the end. -/
def freeSlot (bytes : List UInt8) : Nat :=
  (search (fun k => if (direntAt bytes k).inum = 0 then some k else none) (slots bytes) 0).getD
    (slots bytes)

section Entry

variable {bytes name : List UInt8} {k n : Nat}

theorem entry_lt {e : List UInt8 × Nat} (here : entry bytes k = some e) : k < slots bytes := by
  rw [entry] at here
  split_ifs at here with live
  exact live.1

theorem entry_ne_zero {e : List UInt8 × Nat} (here : entry bytes k = some e) : e.2 ≠ 0 := by
  rw [entry] at here
  split_ifs at here with live
  cases here
  exact live.2

theorem lookup_eq_some : lookup bytes name = some (n, k) ↔
    entry bytes k = some (name, n) ∧ ∀ j, j < k → ∀ m, entry bytes j ≠ some (name, m) := by
  rw [lookup, search_eq_some_iff]
  have found : ∀ j, (if (entry bytes j).map Prod.fst = some name
      then (entry bytes j).map fun e => (e.2, j) else none) = some (n, k) ↔
      j = k ∧ entry bytes j = some (name, n) := by
    intro j
    cases entry bytes j with
    | none => simp
    | some e =>
      obtain ⟨c, m⟩ := e
      simp only [Option.map_some, Option.some.injEq, Prod.mk.injEq]
      split_ifs with same
      · simp only [Option.some.injEq, Prod.mk.injEq, same, true_and, and_comm]
      · exact iff_of_false nofun fun both => same both.2.1
  have missed : ∀ j, (if (entry bytes j).map Prod.fst = some name
      then (entry bytes j).map fun e => (e.2, j) else none) = none ↔
      ∀ m, entry bytes j ≠ some (name, m) := by
    intro j
    cases entry bytes j with
    | none => simp
    | some e =>
      obtain ⟨c, m⟩ := e
      simp only [Option.map_some, Option.some.injEq]
      split_ifs with same
      · exact iff_of_false nofun fun all => all m (by rw [same])
      · refine iff_of_true rfl fun m' both => same ?_
        exact (Prod.mk.inj (Option.some.inj both)).1
  constructor
  · rintro ⟨j, -, -, here, before⟩
    obtain ⟨rfl, held⟩ := (found j).mp here
    exact ⟨held, fun i earlier => (missed i).mp (before i (Nat.zero_le _) earlier)⟩
  · rintro ⟨here, before⟩
    refine ⟨k, Nat.zero_le _, by rw [Nat.zero_add]; exact entry_lt here, (found k).mpr ⟨rfl, here⟩,
      fun i _ earlier => (missed i).mpr (before i earlier)⟩

theorem lookup_eq_none : lookup bytes name = none ↔ ∀ k n, entry bytes k ≠ some (name, n) := by
  constructor
  · intro none k n here
    have least : ∃ k n, entry bytes k = some (name, n) := ⟨k, n, here⟩
    classical
    obtain ⟨m, first⟩ := Nat.find_spec least
    have found := lookup_eq_some.mpr ⟨first, fun j earlier m' here' =>
      Nat.find_min least earlier ⟨m', here'⟩⟩
    rw [none] at found
    cases found
  · intro absent
    cases found : lookup bytes name with
    | none => rfl
    | some r => exact absurd (lookup_eq_some.mp (found : _ = some (r.1, r.2))).1 (absent _ _)

theorem freeSlot_le (bytes : List UInt8) : freeSlot bytes ≤ slots bytes := by
  rw [freeSlot]
  cases found : search (fun k => if (direntAt bytes k).inum = 0 then some k else none)
      (slots bytes) 0 with
  | none => exact le_rfl
  | some k =>
    obtain ⟨j, -, upper, here, -⟩ := search_eq_some_iff.mp found
    split_ifs at here
    cases here
    rw [Option.getD_some]
    omega

/-- A new entry replaces nothing. -/
theorem entry_freeSlot (bytes : List UInt8) : entry bytes (freeSlot bytes) = none := by
  rw [freeSlot]
  cases found : search (fun k => if (direntAt bytes k).inum = 0 then some k else none)
      (slots bytes) 0 with
  | none => exact if_neg fun live => lt_irrefl _ live.1
  | some k =>
    obtain ⟨j, -, -, here, -⟩ := search_eq_some_iff.mp found
    split_ifs at here with free
    cases here
    exact if_neg fun live => live.2 free

end Entry

/-! ### Storing an entry -/

section Store

variable {bytes : List UInt8} {k : Nat}

theorem chunk_overwrite {stored : List UInt8} (width : stored.length = direntSize)
    (start : direntSize * k ≤ bytes.length) (j : Nat) :
    ((overwrite bytes (direntSize * k) stored).drop (direntSize * j)).take direntSize =
      if j = k then stored else (bytes.drop (direntSize * j)).take direntSize := by
  refine List.ext_getElem? fun i => ?_
  by_cases inside : i < direntSize
  · rw [List.getElem?_take_of_lt inside, List.getElem?_drop, overwrite_getElem? start, width]
    unfold direntSize at *
    split_ifs with covered here here
    · subst here
      congr 1
      omega
    · omega
    · omega
    · rw [List.getElem?_take_of_lt inside, List.getElem?_drop]
  · rw [List.getElem?_eq_none (by rw [List.length_take]; omega)]
    split_ifs
    · rw [List.getElem?_eq_none (by omega)]
    · rw [List.getElem?_eq_none (by rw [List.length_take]; omega)]

theorem slots_overwrite {stored : List UInt8} (width : stored.length = direntSize)
    (whole : bytes.length % direntSize = 0) (start : k ≤ slots bytes) :
    (overwrite bytes (direntSize * k) stored).length % direntSize = 0 ∧
      slots (overwrite bytes (direntSize * k) stored) = max (slots bytes) (k + 1) := by
  unfold slots direntSize at *
  rw [overwrite_length (by omega), width]
  omega

/-- Storing an entry. -/
theorem entry_link {de : Dirent} (whole : bytes.length % direntSize = 0) (start : k ≤ slots bytes)
    (positive : 0 < de.inum) (fits : de.inum < 2 ^ 16) :
    entry (overwrite bytes (direntSize * k) de.toBytes) =
      Function.update (entry bytes) k (some (key de.name, de.inum)) := by
  have width := de.toBytes_length
  have count := (slots_overwrite width whole start).2
  have below : direntSize * k ≤ bytes.length := by
    unfold slots direntSize at *
    omega
  obtain ⟨number, same⟩ := de.ofBytes_toBytes
  rw [Nat.mod_eq_of_lt fits] at number
  funext j
  rw [entry, count, direntAt, chunk_overwrite width below]
  by_cases here : j = k
  · subst here
    rw [if_pos rfl, Function.update_self, number, same]
    exact if_pos ⟨by omega, by omega⟩
  · rw [if_neg here, Function.update_of_ne here, entry, direntAt]
    congr 1
    refine propext (and_congr_left fun live => ?_)
    constructor
    · intro upper
      by_contra outside
      omega
    · omega

/-- Zeroing an entry. -/
theorem entry_clear (whole : bytes.length % direntSize = 0) (inside : k < slots bytes) :
    entry (overwrite bytes (direntSize * k) (List.replicate direntSize 0)) =
      Function.update (entry bytes) k none := by
  have width : (List.replicate direntSize (0 : UInt8)).length = direntSize := List.length_replicate
  have count := (slots_overwrite width whole (le_of_lt inside)).2
  have below : direntSize * k ≤ bytes.length := by
    unfold slots direntSize at *
    omega
  funext j
  rw [entry, count, direntAt, chunk_overwrite width below, max_eq_left inside]
  by_cases here : j = k
  · subst here
    rw [if_pos rfl, Function.update_self]
    exact if_neg fun live => live.2 Dirent.ofBytes_zero
  · rw [if_neg here, Function.update_of_ne here, entry, direntAt]

end Store

end Csc3150.Namespace
