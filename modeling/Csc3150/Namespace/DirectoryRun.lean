/-
**Runs on one directory.**

A directory that starts empty and is changed by `dirlink` and by clearing entries is a finite map from
keys to inode numbers, whatever happens to other files in between.

* `OpenDir.dirlookup`, `OpenDir.dirlink`, `OpenDir.clearDirent` — one call on an open directory;
* `ActsAs` — the calls on a directory that stands for a map;
* `directory_is_map` — every run of such calls.
-/

import Csc3150.Namespace.DirectoryMap
import Csc3150.Namespace.Lookup

namespace Csc3150.Namespace

open ByteBuffer FileSystem Outcome Program Search SlotMap Transition
open Program.Script (atomic)

/-! ### One call -/

section Calls

variable {sb : Superblock} {fs fs' : Fs} {dp ip : Ip} {bytes : List UInt8} {name : Name} {n k : Nat}

/-- The inode of the first entry with the name. -/
theorem OpenDir.dirlookup (dir : OpenDir sb fs dp bytes) (name : Name) :
    Meets (Namespace.dirlookup sb dp name).run fs (Crowded fs) fun r fs' =>
      (r = none ∧ lookup bytes (key name) = none ∧ fs' = fs) ∨
      ∃ ip n k, r = some (ip, direntSize * k) ∧ lookup bytes (key name) = some (n, k) ∧
        OpenDir sb fs' dp bytes ∧ (fs'.inode dp).inum = (fs.inode dp).inum ∧ fs'.disk = fs.disk ∧
        (fs'.inode ip).inum = n ∧ Spare fs' dp ip := by
  refine .congr (run_dirlookup dir) ?_
  cases found : lookup bytes (key name) with
  | none => exact .pure (Or.inl ⟨rfl, rfl, rfl⟩)
  | some e =>
    have first : Meets (FileSystem.iget (fs.inode dp).dev e.1) fs (Crowded fs) fun ip fs' =>
        OpenDir sb fs' dp bytes ∧ (fs'.inode dp).inum = (fs.inode dp).inum ∧ fs'.disk = fs.disk ∧
          (fs'.inode ip).inum = e.1 ∧ Spare fs' dp ip :=
      ⟨fun ip fs' run => dir.iget run, fun halt run => iget_stops run⟩
    refine first.bind fun ip fs' facts => .pure (Or.inr ?_)
    exact ⟨ip, e.1, e.2, rfl, rfl, facts⟩

theorem not_noRoom {d : Nat} {disk : Disk}
    (inside : direntSize * freeSlot bytes < MAXFILE * BSIZE)
    (mapped : Mapped sb disk d (freeSlot bytes)) : ¬ NoRoom sb disk d bytes := by
  rintro (largest | ⟨-, missing⟩)
  · exact absurd largest (Nat.ne_of_lt inside)
  · exact missing mapped

/-- A new entry is stored in the first free slot, unless the name is there or there is no room. -/
theorem OpenDir.dirlink (dir : OpenDir sb fs dp bytes) (name : Name) (inum : Nat) :
    Meets (Namespace.dirlink sb dp name inum).run fs (Crowded fs) fun r fs' =>
      (r = 0 ∧ lookup bytes (key name) = none ∧
          ¬ NoRoom sb fs'.disk (fs.inode dp).inum bytes ∧
          OpenDir sb fs' dp (addEntry bytes name inum)) ∨
        (r = -1 ∧ (lookup bytes (key name) ≠ none ∨ NoRoom sb fs'.disk (fs.inode dp).inum bytes) ∧
          OpenDir sb fs' dp bytes) := by
  refine (dir.dirlookup name).seq fun r fs' facts => ?_
  rcases facts with ⟨rfl, absent, rfl⟩ | ⟨ip, n, k, rfl, found, dir', -, -, -, spare⟩
  · have state : (atomic (inode dp)).run fs' = .ok (fs'.inode dp, fs') := rfl
    refine .seq_run state (.seq_run (run_empty dir) ?_)
    obtain ⟨r, after, run, -, outcome⟩ := dir.store (newDirent name inum).toBytes_length
      (freeSlot_le bytes)
    have ran : (atomic (Fs.writei sb dp (.kernel (newDirent name inum).toBytes)
        (UInt32.ofNat (direntSize * freeSlot bytes)) 16)).run fs' = .ok (r, after) := by
      rw [Script.run_atomic]
      exact run
    refine .seq_run ran ?_
    rcases outcome with ⟨rfl, rfl, largest⟩ | ⟨rfl, inside, mapped, stored⟩ |
      ⟨rfl, inside, last, full, missing, kept⟩
    · rw [if_pos (by decide)]
      exact .done (Or.inr ⟨rfl, Or.inr (Or.inl largest), dir⟩)
    · rw [if_neg (not_not.mpr rfl)]
      exact .done (Or.inl ⟨rfl, absent, not_noRoom inside mapped, stored⟩)
    · rw [if_pos (by decide)]
      exact .done (Or.inr ⟨rfl, Or.inr (Or.inr ⟨full, missing⟩), kept⟩)
  · obtain ⟨after, run, kept, -, -⟩ := dir'.iput spare
    refine .seq_run run (.done (Or.inr ⟨rfl, Or.inl ?_, kept⟩))
    rw [found]
    exact Option.some_ne_none _

/-- The entry of a name is cleared. -/
theorem OpenDir.clearDirent (dir : OpenDir sb fs dp bytes) (name : Name) :
    Meets (Namespace.clearDirent sb dp name).run fs (Crowded fs) fun found fs' =>
      (found = false ∧ lookup bytes (key name) = none ∧ fs' = fs) ∨
      ∃ n k, found = true ∧ lookup bytes (key name) = some (n, k) ∧
        OpenDir sb fs' dp (overwrite bytes (direntSize * k) (List.replicate direntSize 0)) := by
  refine (dir.dirlookup name).seq fun r fs' facts => ?_
  rcases facts with ⟨rfl, absent, rfl⟩ | ⟨ip, n, k, rfl, found, dir', number, -, -, spare⟩
  · exact .done (Or.inl ⟨rfl, absent, rfl⟩)
  · have inside : k < slots bytes := entry_lt (lookup_eq_some.mp found).1
    have width : (List.replicate direntSize (0 : UInt8)).length = direntSize := List.length_replicate
    obtain ⟨r, after, run, same, outcome⟩ := dir'.store width (le_of_lt inside)
    have small := dir.small
    rcases outcome with ⟨-, -, largest⟩ | ⟨rfl, -, -, stored⟩ | ⟨-, -, last, -⟩
    · unfold slots direntSize at *
      omega
    · have spare' : Spare after dp ip := by
        unfold Spare at spare ⊢
        rwa [same.ref, same.valid]
      obtain ⟨final, dropped, kept, -, -⟩ := stored.iput spare'
      have ran : (atomic (Fs.writei sb dp (.kernel (List.replicate direntSize 0))
          (UInt32.ofNat (direntSize * k)) 16)).run fs' = .ok ((direntSize : Int), after) := by
        rw [Script.run_atomic]
        exact run
      refine .seq_run ran ?_
      rw [if_neg (not_not.mpr rfl)]
      exact .seq_run dropped (.done (Or.inr ⟨n, k, rfl, found, kept⟩))
    · omega

end Calls

/-! ### Runs -/

/-- A directory whose live entries are the bindings of a map. -/
def IsMap (sb : Superblock) (fs : Fs) (dp : Ip) (map : List UInt8 → Option Nat) : Prop :=
  ∃ bytes, OpenDir sb fs dp bytes ∧ Represents (entry bytes) map

/-- Other files and other entries of the table change, and the directory does not. -/
structure Elsewhere (sb : Superblock) (dp : Ip) (fs fs' : Fs) : Prop where
  image : Image sb fs'.disk
  held : 0 < (fs'.inode dp).ref
  number : (fs'.inode dp).inum = (fs.inode dp).inum
  same : (fs'.inode dp).toDinode = (fs.inode dp).toDinode
  inode : dinode sb fs'.disk (fs.inode dp).inum = dinode sb fs.disk (fs.inode dp).inum
  content : content sb fs'.disk (fs.inode dp).inum = content sb fs.disk (fs.inode dp).inum

/-- A call on the directory with its result, or a step elsewhere. -/
inductive DirEvent
  | dirlookup (name : Name)
  | dirlink (name : Name) (inum : Nat) (r : Int)
  | unlink (name : Name) (found : Bool)
  | elsewhere

/-- The step from `fs` to `fs'` with this event. -/
def DirStep (sb : Superblock) (dp : Ip) (fs : Fs) (event : DirEvent) (fs' : Fs) : Prop :=
  match event with
  | .dirlookup name => ∃ r, (dirlookup sb dp name).run fs = .ok (r, fs')
  | .dirlink name inum r => 0 < inum ∧ inum < 2 ^ 16 ∧ (dirlink sb dp name inum).run fs = .ok (r, fs')
  | .unlink name found => (clearDirent sb dp name).run fs = .ok (found, fs')
  | .elsewhere => Elsewhere sb dp fs fs'

/-- What an event does to the map: a successful `dirlink` adds a binding, clearing an entry removes
one. -/
def DirEvent.next (map : List UInt8 → Option Nat) : DirEvent → List UInt8 → Option Nat
  | .dirlink name inum r => if r = 0 then Function.update map (key name) (some inum) else map
  | .unlink name found => if found then Function.update map (key name) none else map
  | .dirlookup _ | .elsewhere => map

section Runs

variable {sb : Superblock} {start fs fs' : Fs} {dp : Ip} {bytes : List UInt8} {name : Name}
  {map : List UInt8 → Option Nat}

theorem lookup_of_represents (represents : Represents (entry bytes) map) (c : List UInt8) :
    (lookup bytes c).map Prod.fst = map c := by
  cases found : lookup bytes c with
  | none =>
    rw [Option.map_none, represents.eq_none.mpr fun k n => lookup_eq_none.mp found k n]
  | some e =>
    have here := (lookup_eq_some.mp (found : _ = some (e.1, e.2))).1
    rw [Option.map_some, (represents.exact c e.1).mpr ⟨e.2, here⟩]

theorem lookup_eq_none_iff (represents : Represents (entry bytes) map) (c : List UInt8) :
    lookup bytes c = none ↔ map c = none := by
  rw [← lookup_of_represents represents, Option.map_eq_none_iff]

theorem represents_nil : Represents (entry []) fun _ => none := by
  have empty : entry [] = fun _ => none := by
    funext k
    exact if_neg fun live => absurd live.1 (Nat.not_lt_zero k)
  rw [empty]
  exact .empty

/-- A new binding. -/
theorem represents_addEntry (represents : Represents (entry bytes) map)
    (whole : bytes.length % direntSize = 0) {inum : Nat} (positive : 0 < inum) (fits : inum < 2 ^ 16)
    (absent : lookup bytes (key name) = none) :
    Represents (entry (addEntry bytes name inum)) (Function.update map (key name) (some inum)) := by
  rw [entry_addEntry whole positive fits]
  exact represents.link inum (entry_freeSlot bytes) ((lookup_eq_none_iff represents _).mp absent)

/-- A cleared binding. -/
theorem represents_cleared (represents : Represents (entry bytes) map)
    (whole : bytes.length % direntSize = 0) {n k : Nat} (found : lookup bytes (key name) = some (n, k)) :
    Represents (entry (overwrite bytes (direntSize * k) (List.replicate direntSize 0)))
      (Function.update map (key name) none) := by
  have here := (lookup_eq_some.mp found).1
  rw [entry_clear whole (entry_lt here)]
  exact represents.clear here

/-- **One step.** -/
theorem IsMap.step (isMap : IsMap sb fs dp map) {event : DirEvent} (step : DirStep sb dp fs event fs') :
    IsMap sb fs' dp (event.next map) := by
  obtain ⟨bytes, dir, represents⟩ := isMap
  cases event with
  | dirlookup name =>
    obtain ⟨r, run⟩ := step
    rcases (dir.dirlookup name).ends r fs' run with ⟨-, -, rfl⟩ | ⟨_, _, _, -, -, dir', -⟩
    · exact ⟨bytes, dir, represents⟩
    · exact ⟨bytes, dir', represents⟩
  | dirlink name inum r =>
    obtain ⟨positive, fits, run⟩ := step
    rcases (dir.dirlink name inum).ends r fs' run with ⟨rfl, absent, -, dir'⟩ | ⟨rfl, -, dir'⟩
    · exact ⟨_, dir', represents_addEntry represents dir.whole positive fits absent⟩
    · exact ⟨bytes, dir', represents⟩
  | unlink name found =>
    rcases (dir.clearDirent name).ends found fs' step with ⟨rfl, -, rfl⟩ | ⟨n, k, rfl, here, dir'⟩
    · exact ⟨bytes, dir, represents⟩
    · exact ⟨_, dir', represents_cleared represents dir.whole here⟩
  | elsewhere =>
    have away : Elsewhere sb dp fs fs' := step
    refine ⟨bytes, ⟨away.image, away.held, ?_, ?_, ?_, dir.whole, dir.small⟩, represents⟩
    · have inUse : InUse sb (dinode sb fs'.disk) (fs.inode dp).inum := by
        refine ⟨dir.cached.inUse.1, dir.cached.inUse.2.1, ?_⟩
        rw [away.inode]
        exact dir.cached.inUse.2.2
      refine ⟨away.number ▸ inUse, ?_⟩
      rw [away.same, away.number, away.inode]
      exact dir.cached.same
    · exact (congrArg Dinode.type away.same).trans dir.type
    · rw [away.number, away.content]
      exact dir.stored

end Runs

/-! ### The calls on a directory that stands for a map -/

/-- The panics of `readDirent` in `dirlookup`, `dirlink` and `isdirempty` do not occur: a call stops only
in `iget`, when the inode table has no entry left. -/
structure ActsAs (sb : Superblock) (fs : Fs) (dp : Ip) (bytes : List UInt8)
    (map : List UInt8 → Option Nat) : Prop where
  dirlookup : ∀ name, Meets (dirlookup sb dp name).run fs (Crowded fs) fun r fs' =>
    r.map (fun found => (fs'.inode found.1).inum) = map (key name)
  /-- `dirlink` succeeds unless the key is present or there is no room; the entries that were live keep
  their places. -/
  dirlink : ∀ name inum, 0 < inum → inum < 2 ^ 16 →
    Meets (dirlink sb dp name inum).run fs (Crowded fs) fun r fs' =>
      (r = 0 ∧ map (key name) = none ∧ ¬ NoRoom sb fs'.disk (fs.inode dp).inum bytes ∧
        ∃ bytes' k, OpenDir sb fs' dp bytes' ∧ entry bytes k = none ∧
          entry bytes' = Function.update (entry bytes) k (some (key name, inum))) ∨
      (r = -1 ∧ (map (key name) ≠ none ∨ NoRoom sb fs'.disk (fs.inode dp).inum bytes) ∧
        OpenDir sb fs' dp bytes)
  /-- Clearing removes the one entry with the key. -/
  unlink : ∀ name, Meets (clearDirent sb dp name).run fs (Crowded fs) fun found fs' =>
    (found = false ∧ map (key name) = none ∧ fs' = fs) ∨
      (found = true ∧ ∃ bytes' k n, OpenDir sb fs' dp bytes' ∧ entry bytes k = some (key name, n) ∧
        map (key name) = some n ∧ entry bytes' = Function.update (entry bytes) k none)
  isdirempty : ∃ empty, (isdirempty sb dp).run fs = .ok (empty, fs)

section Runs

variable {sb : Superblock} {start fs : Fs} {dp : Ip} {bytes : List UInt8}
  {map : List UInt8 → Option Nat}

theorem OpenDir.actsAs (dir : OpenDir sb fs dp bytes) (represents : Represents (entry bytes) map) :
    ActsAs sb fs dp bytes map where
  dirlookup name := by
    refine (dir.dirlookup name).mono fun r fs' facts => ?_
    rw [← lookup_of_represents represents]
    rcases facts with ⟨rfl, absent, -⟩ | ⟨ip, n, k, rfl, found, -, -, -, number, -⟩
    · rw [absent]
      rfl
    · rw [found, Option.map_some, Option.map_some, number]
  dirlink name inum positive fits := by
    refine (dir.dirlink name inum).mono fun r fs' facts => ?_
    simp only [ne_eq, lookup_eq_none_iff represents] at facts ⊢
    refine facts.imp_left fun ⟨zero, absent, room, dir'⟩ => ⟨zero, absent, room, ?_⟩
    exact ⟨_, freeSlot bytes, dir', entry_freeSlot bytes, entry_addEntry dir.whole positive fits⟩
  unlink name := by
    refine (dir.clearDirent name).mono fun found fs' facts => ?_
    rcases facts with ⟨rfl, absent, rfl⟩ | ⟨n, k, rfl, found, dir'⟩
    · exact Or.inl ⟨rfl, (lookup_eq_none_iff represents _).mp absent, rfl⟩
    · have here := (lookup_eq_some.mp found).1
      refine Or.inr ⟨rfl, _, k, n, dir', here, ?_, entry_clear dir.whole (entry_lt here)⟩
      exact (represents.exact _ n).mpr ⟨k, here⟩
  isdirempty := by
    obtain ⟨empty, run, -⟩ := run_isdirempty dir
    exact ⟨empty, run⟩

/-- **A directory is a finite map.** In every run of `dirlink`, `dirlookup` and the clearing of entries
on a directory that was empty, with any steps on other files in between, the live entries are the
bindings of the map that the successful calls build, each key once, and the calls act on it. -/
theorem directory_is_map {events : List DirEvent} (empty : OpenDir sb start dp [])
    (run : Run (DirStep sb dp) start events fs) :
    ∃ bytes, OpenDir sb fs dp bytes ∧ (fs.inode dp).size = bytes.length ∧
      bytes.length % direntSize = 0 ∧
      Represents (entry bytes) (events.foldl DirEvent.next fun _ => none) ∧
      ActsAs sb fs dp bytes (events.foldl DirEvent.next fun _ => none) := by
  have preserved : ∀ map s event s', IsMap sb s dp map → DirStep sb dp s event s' →
      IsMap sb s' dp (DirEvent.next map event) := fun _ _ _ _ isMap step => isMap.step step
  have first : IsMap sb start dp fun _ => none := ⟨[], empty, represents_nil⟩
  have isMap : IsMap sb fs dp (events.foldl DirEvent.next fun _ => none) := Run.track preserved first run
  obtain ⟨bytes, dir, represents⟩ := isMap
  exact ⟨bytes, dir, dir.size, dir.whole, represents, dir.actsAs represents⟩

end Runs

/-! ### A small directory -/

/-- Perform a call, if it has the result of the event. -/
def DirEvent.perform (sb : Superblock) (dp : Ip) (fs : Fs) : DirEvent → Option Fs
  | .dirlookup name => ((Namespace.dirlookup sb dp name).run fs).toOption.map Prod.snd
  | .dirlink name inum r =>
    if 0 < inum ∧ inum < 2 ^ 16 then
      (((Namespace.dirlink sb dp name inum).run fs).toOption.filter fun result => result.1 = r).map
        Prod.snd
    else none
  | .unlink name found =>
    (((clearDirent sb dp name).run fs).toOption.filter fun result => result.1 = found).map Prod.snd
  | .elsewhere => none

theorem toOption_eq_some {ε α : Type} {x : Except ε α} {a : α} : x.toOption = some a ↔ x = .ok a := by
  cases x with
  | ok b => exact ⟨fun same => congrArg _ (Option.some.inj same), fun same => by cases same; rfl⟩
  | error e =>
    refine iff_of_false (fun same => ?_) fun same => ?_
    · cases same
    · cases same

theorem dirStep_of_perform {sb : Superblock} {dp : Ip} {fs fs' : Fs} {event : DirEvent}
    (performed : event.perform sb dp fs = some fs') : DirStep sb dp fs event fs' := by
  have ends : ∀ {α : Type} {x : Except Halt (α × Fs)} {check : α × Fs → Bool},
      (x.toOption.filter check).map Prod.snd = some fs' →
        ∃ a, x = .ok (a, fs') ∧ check (a, fs') = true := by
    intro α x check found
    obtain ⟨result, kept, rfl⟩ := Option.map_eq_some_iff.mp found
    obtain ⟨run, holds⟩ := Option.filter_eq_some_iff.mp kept
    exact ⟨result.1, toOption_eq_some.mp run, holds⟩
  cases event with
  | dirlookup name =>
    obtain ⟨result, run, rfl⟩ := Option.map_eq_some_iff.mp performed
    exact ⟨result.1, toOption_eq_some.mp run⟩
  | dirlink name inum r =>
    rw [DirEvent.perform] at performed
    split_ifs at performed with bounds
    obtain ⟨a, run, same⟩ := ends performed
    exact ⟨bounds.1, bounds.2, of_decide_eq_true same ▸ run⟩
  | unlink name found =>
    obtain ⟨a, run, same⟩ := ends performed
    have isFound : a = found := of_decide_eq_true same
    exact isFound ▸ run
  | elsewhere => cases performed

/-- The root directory is empty; the other inodes are files. -/
def emptyFiles : Files where
  entries := []
  type _ := T_FILE
  nlink _ := 1
  typed _ := by decide
  small := by decide

/-- The inodes up to 3, in the first entries of the table. -/
def emptyFs : Fs := emptyFiles.fs 1 3 3

theorem openDir_emptyFs : OpenDir busySuperblock emptyFs firstIp [] := by
  have root : dinode busySuperblock (emptyFiles.disk 3) ROOTINO = emptyFiles.dinode ROOTINO :=
    (emptyFiles.dinode_disk 3 ROOTINO (by decide)).trans (if_pos (by decide))
  have inUse : InUse busySuperblock (dinode busySuperblock (emptyFiles.disk 3)) ROOTINO :=
    (emptyFiles.inUse_disk (by decide)).mpr ⟨by decide, by decide⟩
  refine ⟨emptyFiles.image_disk (by decide) (by decide), by decide, ⟨inUse, root.symm⟩, rfl, ?_, rfl,
    Nat.zero_le _⟩
  show content busySuperblock (emptyFiles.disk 3) ROOTINO = []
  rw [content, root]
  rfl

/-- Link `a`, fail to link it again, look it up, and clear it. -/
def smallEvents : List DirEvent :=
  [.dirlink (literal [97]) 2 0, .dirlink (literal [97]) 3 (-1), .dirlookup (literal [97]),
    .unlink (literal [97]) true]

theorem directory_is_map_small : ∃ fs, Run (DirStep busySuperblock firstIp) emptyFs smallEvents fs ∧
    ∃ bytes, OpenDir busySuperblock fs firstIp bytes ∧
      Represents (entry bytes) (smallEvents.foldl DirEvent.next fun _ => none) := by
  have performed : (smallEvents.foldlM (DirEvent.perform busySuperblock firstIp) emptyFs).isSome := by
    decide +kernel
  obtain ⟨fs, reached⟩ := Option.isSome_iff_exists.mp performed
  have run := Run.of_foldlM (fun _ _ _ => dirStep_of_perform) reached
  obtain ⟨bytes, dir, -, -, represents, -⟩ := directory_is_map openDir_emptyFs run
  exact ⟨fs, run, bytes, dir, represents⟩

end Csc3150.Namespace
