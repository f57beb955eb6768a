/-
**Directories: what `dirlookup`, `dirlink` and `isdirempty` do.**

On a directory with whole entries, the loops over the entries read the directory as it is on disk and
change nothing, so that

* `run_dirlookup` — `dirlookup` takes a reference to the inode of the first entry with the name;
* `run_emptyFrom` — `dirlink` picks the first free entry, or the end;
* `run_isdirempty` — `isdirempty` looks for an entry past the first two.
-/

import Csc3150.Namespace.Holding
import Csc3150.Library.SlotMap

namespace Csc3150.Namespace

open ByteBuffer FileSystem Outcome Program Search
open Program.Script (atomic)

/-- An up-to-date entry of the inode table for a directory with whole entries. -/
structure OpenDir (sb : Superblock) (fs : Fs) (dp : Ip) (bytes : List UInt8) : Prop where
  image : Image sb fs.disk
  held : 0 < (fs.inode dp).ref
  cached : Cached sb fs.disk (fs.inode dp)
  type : (fs.inode dp).type = T_DIR
  stored : content sb fs.disk (fs.inode dp).inum = bytes
  whole : bytes.length % direntSize = 0
  small : bytes.length ≤ MAXFILE * BSIZE

/-- Take a reference to the inode of the entry that was found. -/
def refer (dev : Nat) : Option (Nat × Nat) → FsProg (Option (Ip × Nat))
  | none => return none
  | some (inum, k) => do
    let ip ← iget dev inum
    return some (ip, direntSize * k)

section Loops

variable {sb : Superblock} {fs : Fs} {dp : Ip} {bytes : List UInt8} {halt : Halt} {name : Name}

theorem OpenDir.size (dir : OpenDir sb fs dp bytes) : (fs.inode dp).size = bytes.length := by
  rw [← dir.stored, content_length, dir.cached.same]

theorem entryOffset {k : Nat} (inside : direntSize * k ≤ MAXFILE * BSIZE) :
    (UInt32.ofNat (direntSize * k)).toNat = direntSize * k := by
  have total : MAXFILE * BSIZE < 2 ^ 32 := by decide
  exact UInt32.toNat_ofNat_of_lt' (by
    show direntSize * k < 2 ^ 32
    omega)

/-- Reading an entry. -/
theorem run_readDirent (dir : OpenDir sb fs dp bytes) {k : Nat} (inside : k < slots bytes) :
    (readDirent sb dp halt (direntSize * k)).run fs = .ok (direntAt bytes k, fs) := by
  have below : direntSize * k + direntSize ≤ bytes.length := by
    unfold slots direntSize at *
    omega
  have small := dir.small
  have total : MAXFILE * BSIZE < 2 ^ 32 := by decide
  have offset := entryOffset (k := k) (by omega)
  have sixteen : (16 : UInt32).toNat = direntSize := rfl
  have amount : readable (fs.inode dp).size (UInt32.ofNat (direntSize * k)) 16 = direntSize := by
    rw [readable, offset, sixteen, dir.size, if_neg (by omega)]
    omega
  have read : Fs.readi sb dp (fun _ _ => false) (UInt32.ofNat (direntSize * k)) 16 fs =
      .ok (((direntSize : Int), (bytes.drop (direntSize * k)).take direntSize), fs) := by
    rcases readi_spec dir.image dir.cached (fun _ _ => false)
      (UInt32.ofNat (direntSize * k)) 16 with
      ⟨-, large⟩ | ⟨r, copied, run, ⟨rfl, rfl⟩ | ⟨-, _, _, fault⟩⟩
    · rw [dir.size] at large
      omega
    · have same : fs.put dp fs.disk (fs.inode dp) = fs := by
        rw [Fs.put, Function.update_eq_self]
      refine (bind_of_ok run).trans ?_
      rw [amount, offset, dir.stored]
      exact congrArg (fun state => Except.ok (_, state)) same
    · cases fault
  rw [readDirent, Script.run_bind, Script.run_atomic, bind_run read]
  dsimp only
  rw [if_neg (not_not.mpr rfl)]
  rfl

/-- The offsets of the entries from index `j` on. -/
theorem offsets_eq (j : Nat) {size : Nat} (whole : size % direntSize = 0) :
    offsets (direntSize * j) size =
      (List.range' j (size / direntSize - j)).map (direntSize * ·) := by
  have count : (size - direntSize * j + (direntSize - 1)) / direntSize = size / direntSize - j := by
    unfold direntSize at *
    omega
  rw [offsets, count, List.range'_eq_map_range, List.map_map]
  refine List.map_congr_left fun k _ => ?_
  exact (Nat.mul_add _ _ _).symm

theorem run_dirlookupFrom (dir : OpenDir sb fs dp bytes) (dev : Nat) :
    ∀ count start, start + count ≤ slots bytes →
    (dirlookupFrom sb dp dev name ((List.range' start count).map (direntSize * ·))).run fs =
      refer dev (search (fun k => if (entry bytes k).map Prod.fst = some (key name)
        then (entry bytes k).map fun e => (e.2, k) else none) count start) fs := by
  intro count
  induction count with
  | zero => exact fun _ _ => rfl
  | succ count ih =>
    intro start room
    rw [List.range'_succ, List.map_cons, dirlookupFrom, Script.run_bind,
      bind_run (run_readDirent dir (by omega)), search]
    by_cases free : (direntAt bytes start).inum = 0
    · have none : entry bytes start = none := if_neg fun live => live.2 free
      rw [if_pos free, none, Option.map_none, if_neg (Option.some_ne_none _).symm]
      exact ih (start + 1) (by omega)
    · have some : entry bytes start =
          some (key (direntAt bytes start).name, (direntAt bytes start).inum) :=
        if_pos ⟨by omega, free⟩
      rw [if_neg free, some, Option.map_some, Option.map_some]
      by_cases same : namecmp name (direntAt bytes start).name = 0
      · have keys := (namecmp_eq_zero _ _).mp same
        rw [if_pos same, if_pos (congrArg Option.some keys.symm), Script.run_bind,
          Script.run_atomic]
        rfl
      · have keys := mt (namecmp_eq_zero _ _).mpr same
        rw [if_neg same, if_neg fun equal => keys (Option.some.inj equal).symm]
        exact ih (start + 1) (by omega)

/-- `dirlookup` takes a reference to the inode of the first entry with the name. -/
theorem run_dirlookup (dir : OpenDir sb fs dp bytes) :
    (dirlookup sb dp name).run fs = refer (fs.inode dp).dev (lookup bytes (key name)) fs := by
  have all : offsets 0 bytes.length = (List.range' 0 (slots bytes)).map (direntSize * ·) := by
    have here := offsets_eq 0 dir.whole
    rwa [Nat.mul_zero, Nat.sub_zero] at here
  rw [dirlookup, Script.run_bind, Script.run_atomic, bind_run (a := fs.inode dp) rfl,
    if_neg (not_not.mpr dir.type), dir.size, all,
    run_dirlookupFrom dir _ _ _ (by rw [Nat.zero_add])]
  rfl

theorem run_emptyFrom (dir : OpenDir sb fs dp bytes) :
    ∀ count start, start + count = slots bytes →
    (emptyFrom sb dp (direntSize * start) ((List.range' start count).map (direntSize * ·))).run fs =
      .ok (direntSize * ((search (fun k => if (direntAt bytes k).inum = 0 then some k else none)
        count start).getD (slots bytes)), fs) := by
  intro count
  induction count with
  | zero =>
    intro start room
    rw [Nat.add_zero] at room
    rw [search, Option.getD_none, ← room]
    rfl
  | succ count ih =>
    intro start room
    rw [List.range'_succ, List.map_cons, emptyFrom, Script.run_bind,
      bind_run (run_readDirent dir (by omega)), search]
    by_cases free : (direntAt bytes start).inum = 0
    · rw [if_pos free, if_pos free]
      rfl
    · rw [if_neg free, if_neg free]
      exact ih (start + 1) (by omega)

/-- The second loop of `dirlink` ends at the first free entry, or behind the last one. -/
theorem run_empty (dir : OpenDir sb fs dp bytes) :
    (emptyFrom sb dp 0 (offsets 0 (fs.inode dp).size)).run fs =
      .ok (direntSize * freeSlot bytes, fs) := by
  have all := offsets_eq 0 dir.whole
  have loop := run_emptyFrom dir (slots bytes) 0 (Nat.zero_add _)
  rw [Nat.mul_zero] at all loop
  rw [dir.size, all, Nat.sub_zero]
  exact loop

theorem run_isdiremptyFrom (dir : OpenDir sb fs dp bytes) :
    ∀ count start, start + count = slots bytes →
    ∃ empty : Bool,
      (isdiremptyFrom sb dp ((List.range' start count).map (direntSize * ·))).run fs =
        .ok (empty, fs) ∧
      (empty = true ↔ ∀ k, start ≤ k → entry bytes k = none) := by
  intro count
  induction count with
  | zero =>
    intro start room
    refine ⟨true, rfl, iff_of_true rfl fun k above => if_neg fun live => ?_⟩
    omega
  | succ count ih =>
    intro start room
    rw [List.range'_succ, List.map_cons, isdiremptyFrom, Script.run_bind,
      bind_run (run_readDirent dir (by omega))]
    by_cases free : (direntAt bytes start).inum = 0
    · obtain ⟨empty, run, same⟩ := ih (start + 1) (by omega)
      rw [if_neg (not_not.mpr free)]
      refine ⟨empty, run, same.trans ⟨fun all k above => ?_, fun all k above => all k (by omega)⟩⟩
      rcases Nat.eq_or_lt_of_le above with rfl | later
      · exact if_neg fun live => live.2 free
      · exact all k later
    · rw [if_pos free]
      refine ⟨false, rfl, iff_of_false Bool.false_ne_true fun all => ?_⟩
      have here := all start le_rfl
      rw [entry, if_pos ⟨by omega, free⟩] at here
      cases here

/-- `isdirempty` looks for an entry past the first two. -/
theorem run_isdirempty (dir : OpenDir sb fs dp bytes) :
    ∃ empty : Bool, (isdirempty sb dp).run fs = .ok (empty, fs) ∧
      (empty = true ↔ ∀ k, 2 ≤ k → entry bytes k = none) := by
  have all := offsets_eq 2 dir.whole
  rw [isdirempty, Script.run_bind, Script.run_atomic, bind_run (a := fs.inode dp) rfl, dir.size,
    Nat.mul_comm 2, all]
  by_cases room : 2 ≤ slots bytes
  · exact run_isdiremptyFrom dir _ 2 (Nat.add_sub_cancel' room)
  · have none : bytes.length / direntSize - 2 = 0 := by
      unfold slots at room
      omega
    rw [none]
    refine ⟨true, rfl, iff_of_true rfl fun k above => if_neg fun live => ?_⟩
    omega

end Loops

end Csc3150.Namespace
