/-
**What a running call holds.**

`At` describes the file system in the middle of a call: how many references the rest of the kernel
has (`uses`) and which ones the call has in hand (`held`), which locks it holds, which inode every entry
of the table stands for (`name`), and what every inode is (`node`). An allocated inode without links is in
use somewhere, except for the ones that the call is about to drop (`loose`).

Every function of the inode layer has one lemma here that says how it changes the description, and which
panics it can end in.
-/

import Csc3150.Namespace.System

namespace Csc3150.Namespace

open ByteBuffer FileSystem Outcome Program Search
open Program.Script (atomic)

/-! ### Nodes -/

/-- What an allocated inode is. -/
@[ext] structure Node where
  type : Int16
  major : Int16
  minor : Int16
  nlink : Int16
  bytes : List UInt8

/-- The node of a `struct dinode` with these contents. -/
def nodeOf (dip : Dinode) (bytes : List UInt8) : Node where
  type := dip.type
  major := dip.major
  minor := dip.minor
  nlink := dip.nlink
  bytes := bytes

/-- The allocated inodes of the disk. -/
def nodeAt (sb : Superblock) (disk : Disk) (n : Nat) : Option Node :=
  if InUse sb (dinode sb disk) n then some (nodeOf (dinode sb disk n) (content sb disk n)) else none

section NodeAt

variable {sb : Superblock} {disk after : Disk} {n m : Nat}

theorem nodeAt_of_inUse (inUse : InUse sb (dinode sb disk) n) :
    nodeAt sb disk n = some (nodeOf (dinode sb disk n) (content sb disk n)) := if_pos inUse

theorem nodeAt_eq_none : nodeAt sb disk n = none ↔ ¬ InUse sb (dinode sb disk) n := by
  rw [nodeAt]
  split_ifs with inUse
  · exact iff_of_false nofun (not_not.mpr inUse)
  · exact iff_of_true rfl inUse

theorem nodeAt_eq_some {x : Node} : nodeAt sb disk n = some x ↔
    InUse sb (dinode sb disk) n ∧ nodeOf (dinode sb disk n) (content sb disk n) = x := by
  rw [nodeAt]
  split_ifs with inUse
  · exact Option.some_inj.trans (and_iff_right inUse).symm
  · exact iff_of_false nofun fun both => inUse both.1

theorem bounded_of_nodeAt (small : ∀ n x, nodeAt sb disk n = some x →
    x.bytes.length ≤ MAXFILE * BSIZE) : Bounded sb disk := by
  intro n inUse
  have here := small n _ (nodeAt_of_inUse inUse)
  rwa [nodeOf, content_length] at here

/-- A step on inode `m` leaves the other nodes alone. -/
theorem nodeAt_touches (touches : Touches sb m disk after) (bounded : Bounded sb disk)
    (different : n ≠ m) : nodeAt sb after n = nodeAt sb disk n := by
  have used : InUse sb (dinode sb after) n ↔ InUse sb (dinode sb disk) n :=
    InUse.congr fun inside => by rw [touches.inodes n inside different]
  by_cases inUse : InUse sb (dinode sb disk) n
  · rw [nodeAt_of_inUse inUse, nodeAt_of_inUse (used.mpr inUse),
      touches.inodes n inUse.2.1 different, touches.content inUse different (bounded n inUse)]
  · rw [nodeAt_eq_none.mpr inUse, nodeAt_eq_none.mpr (mt used.mp inUse)]

end NodeAt

/-- The bytes of a file whose inode is written back with the same blocks and no larger size. -/
theorem content_writeDinode {sb : Superblock} {disk : Disk} {n : Nat} {dip : Dinode}
    (image : Image sb disk) (inUse : InUse sb (dinode sb disk) n)
    (own : dinode sb (writeDinode sb disk n dip) n = dip)
    (addrs : dip.addrs = (dinode sb disk n).addrs) (size : dip.size ≤ (dinode sb disk n).size) :
    content sb (writeDinode sb disk n dip) n = (content sb disk n).take dip.size := by
  have same : fileBytes (writeDinode sb disk n dip) dip.addrs 0 dip.size =
      fileBytes disk dip.addrs 0 dip.size := by
    refine List.map_congr_left fun k _ => ?_
    rw [addrs]
    exact image.owned.fileByte_inodeBlock image.layout inUse.2.1 inUse (0 + k)
  have front : ((fileBytes disk (dinode sb disk n).addrs 0 (dinode sb disk n).size).drop 0).take
      dip.size = fileBytes disk (dinode sb disk n).addrs 0 dip.size :=
    fileBytes_drop_take (by omega)
  rw [List.drop_zero] at front
  rw [content, own, same, content, front, addrs]

/-- A write inside one block stores everything, unless the block cannot be had. -/
theorem writei_block {sb : Superblock} {disk : Disk} {ip : Inode} {src : CopyIn} {off n : UInt32}
    {after : Disk} {ip' : Inode} {tot : Nat} (copies : ∀ tot m, src.fault tot m = none)
    (positive : 0 < n.toNat) (fits : off.toNat % BSIZE + n.toNat ≤ BSIZE)
    (accepts : ¬ Rejects ip.size off n)
    (run : FileSystem.writei sb disk ip src off n = .ok (after, ip', (tot : Int))) :
    ∃ middle ip'' addr, bmap sb disk ip (off.toNat / BSIZE) = .ok (middle, ip'', addr) ∧
      tot = if addr = 0 then 0 else n.toNat := by
  rw [FileSystem.writei, writeiWith_eq accepts] at run
  obtain ⟨⟨middle, ip₁, off₁, tot₁⟩, loop, rest⟩ := bind_eq_ok.mp run
  have count : (tot₁ : Int) = tot :=
    (Prod.mk.inj (Prod.mk.inj (Except.ok.inj rest)).2).2
  obtain ⟨fuel, isSucc⟩ : ∃ fuel, n.toNat = fuel + 1 := ⟨n.toNat - 1, by omega⟩
  have amount : min (n.toNat - 0) (BSIZE - off.toNat % BSIZE) = n.toNat := by omega
  rw [show writeiLoopWith .disk sb src n.toNat n.toNat disk ip off.toNat 0 =
    writeiLoopWith .disk sb src n.toNat (fuel + 1) disk ip off.toNat 0 by rw [← isSucc]] at loop
  obtain ⟨⟨disk₂, ip₂, addr⟩, mapped, -⟩ := bind_eq_ok.mp ((if_pos positive).symm.trans loop)
  refine ⟨disk₂, ip₂, addr, mapped, ?_⟩
  by_cases zero : addr = 0
  · subst zero
    cases loop.symm.trans (writeiLoopWith_stop positive mapped)
    rw [if_pos rfl]
    omega
  · cases loop.symm.trans ((writeiLoopWith_chunk positive mapped zero amount (copies 0 n.toNat)).trans
      (writeiLoopWith_done fuel (by omega)))
    rw [if_neg zero]
    omega

/-- `bmap` finds the blocks of a file. -/
theorem bmap_mapped {sb : Superblock} {disk middle : Disk} {ip ip' : Inode} {off addr : Nat}
    (image : Image sb disk) (cached : Cached sb disk ip) (below : off < ip.size)
    (small : off < MAXFILE * BSIZE)
    (run : bmap sb disk ip (off / BSIZE) = .ok (middle, ip', addr)) : addr ≠ 0 := by
  have inside : off / BSIZE < MAXFILE := Nat.div_lt_of_lt_mul (by rwa [Nat.mul_comm])
  have owned : Owned sb disk (withInode (dinode sb disk) ip) := by
    rw [cached.withInode]
    exact image.owned
  have inUse : InUse sb (withInode (dinode sb disk) ip) ip.inum := by
    rw [cached.withInode]
    exact cached.inUse
  obtain ⟨after, ip'', addr', mapped, walk⟩ := bmap_spec image.layout owned inUse inside
  rw [run] at mapped
  cases mapped
  have present := image.filled ip.inum cached.inUse (off / BSIZE) inside
  rw [← cached.same] at present
  have nonzero := present (lt_of_le_of_lt (Nat.div_mul_le_self _ _) below)
  obtain ⟨rfl, rfl⟩ := walk.present nonzero
  rw [← walk.held]
  exact nonzero

theorem overwrite_nil (list : List UInt8) (off : Nat) : overwrite list off [] = list := by
  rw [overwrite, List.append_nil, List.length_nil, Nat.add_zero, List.take_append_drop]

/-- The bytes of a source in kernel memory. -/
theorem kernel_bytes {data : List UInt8} {tot : Nat} (inside : tot ≤ data.length) :
    (CopyIn.kernel data).bytes 0 tot = data.take tot := by
  have length : (data.take tot).length = tot := by
    rw [List.length_take]
    omega
  have here : read (CopyIn.kernel data).byte 0 (data.take tot).length = data.take tot := by
    apply read_of_bytes
    intro i below
    rw [List.getElem?_eq_getElem below, Nat.zero_add]
    show some (data[i]?.getD 0) = _
    rw [List.getElem?_eq_getElem (by omega), Option.getD_some, List.getElem_take]
  rwa [length] at here

/-- Free inode `n` if it has no links. -/
def reclaim (node : Nat → Option Node) (n : Nat) : Nat → Option Node :=
  Function.update node n ((node n).filter fun x => x.nlink ≠ 0)

section Reclaim

variable {node : Nat → Option Node} {n : Nat}

@[simp] theorem reclaim_of_ne {m : Nat} (different : m ≠ n) : reclaim node n m = node m :=
  Function.update_of_ne different _ _

@[simp] theorem reclaim_self : reclaim node n n = (node n).filter fun x => x.nlink ≠ 0 :=
  Function.update_self _ _ _

/-- An inode with links, or a free one, is left alone. -/
theorem reclaim_eq (linked : ∀ x, node n = some x → x.nlink ≠ 0) : reclaim node n = node := by
  rw [reclaim, Function.update_eq_self_iff]
  cases found : node n with
  | none => rfl
  | some x => simp [linked x found]

theorem reclaim_unlinked {x : Node} (isNode : node n = some x) (zero : x.nlink = 0) :
    reclaim node n = Function.update node n none := by
  rw [reclaim, isNode]
  refine congrArg _ ?_
  simp [Option.filter, zero]

end Reclaim

/-! ### The description -/

/-- A directory with whole entries, each with the number of an inode of the image, in which no name but
"." and ".." stands for the directory itself. -/
structure DirOk (sb : Superblock) (d : Nat) (bytes : List UInt8) : Prop where
  whole : bytes.length % direntSize = 0
  inside : ∀ {k c n}, entry bytes k = some (c, n) → n < sb.ninodes
  apart : ∀ {k c n}, entry bytes k = some (c, n) → c ≠ key dot → c ≠ key dotdot → n ≠ d

/-- What every node satisfies. -/
structure NodeOk (sb : Superblock) (n : Nat) (x : Node) : Prop where
  type : x.type ≠ 0
  small : x.bytes.length ≤ MAXFILE * BSIZE
  dir : x.type = T_DIR → DirOk sb n x.bytes

/-- The references and locks in hand, and the inodes without links that they keep. -/
structure Hand where
  held : List Ip
  locks : List Ip
  loose : List Nat

/-- The file system in the middle of a call. -/
structure At (sb : Superblock) (uses : Ip → Int) (hand : Hand) (name : Ip → Nat)
    (node : Nat → Option Node) (fs : Fs) : Prop where
  sound : fs.Sound sb
  nodes : ∀ n, nodeAt sb fs.disk n = node n
  ok : ∀ {n x}, node n = some x → NodeOk sb n x
  nonneg : ∀ i, 0 ≤ uses i
  refs : ∀ i, (fs.inode i).ref = uses i + hand.held.count i
  locked : ∀ i, (fs.inode i).lock = true ↔ i ∈ hand.locks
  named : ∀ {i}, 0 < (fs.inode i).ref → (fs.inode i).inum = name i
  /-- The rest of the kernel refers to allocated inodes. -/
  used : ∀ {i}, 0 < uses i → node (name i) ≠ none
  /-- Without links, an inode is in use or about to be dropped. -/
  kept : ∀ {n x}, node n = some x → x.nlink = 0 → n ∈ hand.loose ∨ ∃ i, 0 < uses i ∧ name i = n
  loose : ∀ {n}, n ∈ hand.loose → ∃ i, i ∈ hand.held ∧ name i = n
  /-- Entries of inodes without links have been read. -/
  seen : ∀ {i x}, 0 < (fs.inode i).ref → node (name i) = some x → x.nlink = 0 →
    (fs.inode i).valid = true

namespace At

variable {sb : Superblock} {uses : Ip → Int} {hand hand' : Hand} {name : Ip → Nat}
  {node node' : Nat → Option Node} {fs : Fs} {i j : Ip}

section Facts

variable (here : At sb uses hand name node fs)

include here

theorem bounded : Bounded sb fs.disk :=
  bounded_of_nodeAt fun n _ isNode => (here.ok (here.nodes n ▸ isNode)).small

theorem ref_pos_of_held (held : i ∈ hand.held) : 0 < (fs.inode i).ref := by
  have nonneg := here.nonneg i
  have count := List.count_pos_iff.mpr held
  rw [here.refs]
  omega

theorem ref_pos_of_uses (used : 0 < uses i) : 0 < (fs.inode i).ref := by
  rw [here.refs]
  omega

/-- The table has one entry for every inode. -/
theorem name_inj (pos : 0 < (fs.inode i).ref) (pos' : 0 < (fs.inode j).ref)
    (same : name j = name i) : j = i :=
  here.sound.table.unique pos pos' (by rw [here.named pos, here.named pos', same])

theorem name_range (pos : 0 < (fs.inode i).ref) : 0 < name i ∧ name i < sb.ninodes := by
  rw [← here.named pos]
  exact (here.sound.table.named pos).2

theorem dev (pos : 0 < (fs.inode i).ref) : (fs.inode i).dev = ROOTDEV :=
  (here.sound.table.named pos).1

theorem loose_subset (held : ∀ n ∈ hand'.loose, ∃ i, i ∈ hand'.held ∧ name i = n)
    (more : ∀ n ∈ hand.loose, n ∈ hand'.loose ∨ ∃ i, 0 < uses i ∧ name i = n)
    (count : ∀ i, hand'.held.count i = hand.held.count i)
    (locks : ∀ i, i ∈ hand'.locks ↔ i ∈ hand.locks) : At sb uses hand' name node fs :=
  { here with
    refs := fun i => by rw [here.refs, count]
    locked := fun i => by rw [here.locked, locks]
    loose := fun member => held _ member
    kept := fun isNode zero => (here.kept isNode zero).elim (more _) Or.inr }

end Facts

/-- A step on the entry of one referenced inode and on its node. -/
theorem put (here : At sb uses hand name node fs) {after : Disk} {ip : Inode}
    (pos : 0 < (fs.inode i).ref) (sound : (fs.put i after ip).Sound sb)
    (number : ip.inum = (fs.inode i).inum)
    (touches : Touches sb (name i) fs.disk after) (own : nodeAt sb after (name i) = node' (name i))
    (others : ∀ n, n ≠ name i → node' n = node n)
    (ok : ∀ x, node' (name i) = some x → NodeOk sb (name i) x)
    (ref : ip.ref = uses i + hand'.held.count i)
    (counts : ∀ j, j ≠ i → hand'.held.count j = hand.held.count j)
    (lock : ip.lock = true ↔ i ∈ hand'.locks)
    (locks : ∀ j, j ≠ i → (j ∈ hand'.locks ↔ j ∈ hand.locks))
    (used : 0 < uses i → node' (name i) ≠ none)
    (kept : ∀ x, node' (name i) = some x → x.nlink = 0 → name i ∈ hand'.loose ∨ 0 < uses i)
    (looses : ∀ n, n ≠ name i → (n ∈ hand'.loose ↔ n ∈ hand.loose))
    (loose : name i ∈ hand'.loose → i ∈ hand'.held)
    (seen : 0 < ip.ref → ∀ x, node' (name i) = some x → x.nlink = 0 → ip.valid = true) :
    At sb uses hand' name node' (fs.put i after ip) := by
  have self : (fs.put i after ip).inode i = ip := fs.put_self i after ip
  have other : ∀ {j}, j ≠ i → (fs.put i after ip).inode j = fs.inode j :=
    fun different => fs.put_of_ne i after ip different
  have away : ∀ {j}, j ≠ i → 0 < (fs.inode j).ref → name j ≠ name i :=
    fun different posJ same => different (here.name_inj pos posJ same)
  refine ⟨sound, fun n => ?_, fun {n _} isNode => ?_, here.nonneg, fun j => ?_, fun j => ?_,
    fun {j} posJ => ?_, fun {j} usedJ => ?_, fun {n x} isNode zero => ?_, fun {n} member => ?_,
    fun {j x} posJ isNode zero => ?_⟩
  · by_cases isI : n = name i
    · subst isI
      exact own
    · rw [others n isI, ← here.nodes]
      exact nodeAt_touches touches here.bounded isI
  · by_cases isI : n = name i
    · subst isI
      exact ok _ isNode
    · rw [others n isI] at isNode
      exact here.ok isNode
  · by_cases isI : j = i
    · subst isI
      rw [self, ref]
    · rw [other isI, here.refs, counts j isI]
  · by_cases isI : j = i
    · subst isI
      rw [self, lock]
    · rw [other isI, here.locked, locks j isI]
  · by_cases isI : j = i
    · subst isI
      rw [self, number]
      exact here.named pos
    · rw [other isI] at posJ ⊢
      exact here.named posJ
  · by_cases isI : j = i
    · subst isI
      exact used usedJ
    · rw [others _ (away isI (here.ref_pos_of_uses usedJ))]
      exact here.used usedJ
  · by_cases isI : n = name i
    · subst isI
      exact (kept x isNode zero).imp_right fun usedI => ⟨i, usedI, rfl⟩
    · rw [others n isI] at isNode
      exact (here.kept isNode zero).imp_left (looses n isI).mpr
  · by_cases isI : n = name i
    · subst isI
      exact ⟨i, loose member, rfl⟩
    · obtain ⟨j, held, same⟩ := here.loose ((looses n isI).mp member)
      have different : j ≠ i := fun equal => isI (by rw [← same, equal])
      refine ⟨j, ?_, same⟩
      rw [← List.count_pos_iff, counts j different]
      exact List.count_pos_iff.mpr held
  · by_cases isI : j = i
    · subst isI
      rw [self] at posJ ⊢
      exact seen posJ _ isNode zero
    · rw [other isI] at posJ ⊢
      rw [others _ (away isI posJ)] at isNode
      exact here.seen posJ isNode zero

/-! ### References and locks -/

section Table

variable {held locks : List Ip} {loose : List Nat} {stops : Halt → Prop} {fs' : Fs}

/-- A change of the entry of a referenced inode that leaves its number, the disk and the fields alone. -/
theorem entry (here : At sb uses hand name node fs) {ip : Inode} (pos : 0 < (fs.inode i).ref)
    (sound : (fs.setInode i ip).Sound sb) (number : ip.inum = (fs.inode i).inum)
    (ref : ip.ref = uses i + hand'.held.count i)
    (counts : ∀ j, j ≠ i → hand'.held.count j = hand.held.count j)
    (lock : ip.lock = true ↔ i ∈ hand'.locks)
    (locks : ∀ j, j ≠ i → (j ∈ hand'.locks ↔ j ∈ hand.locks))
    (looses : ∀ n, n ≠ name i → (n ∈ hand'.loose ↔ n ∈ hand.loose))
    (less : name i ∈ hand.loose → name i ∈ hand'.loose ∨ 0 < uses i)
    (loose : name i ∈ hand'.loose → i ∈ hand'.held)
    (valid : (fs.inode i).valid = true → ip.valid = true) :
    At sb uses hand' name node (fs.setInode i ip) := by
  refine here.put pos sound number (Touches.refl _ _ _) (here.nodes _) (fun _ _ => rfl)
    (fun x isNode => here.ok isNode) ref counts lock locks here.used (fun x isNode zero => ?_) looses
    loose fun _ x isNode zero => valid (here.seen pos isNode zero)
  rcases here.kept isNode zero with member | ⟨j, usedJ, same⟩
  · exact less member
  · obtain rfl := here.name_inj pos (here.ref_pos_of_uses usedJ) same
    exact Or.inr usedJ

/-- `iget` takes a reference to the inode with number `n`. -/
theorem iget (here : At sb uses ⟨held, locks, loose⟩ name node fs) {n : Nat} (positive : 0 < n)
    (inside : n < sb.ninodes) (full : (∀ i, (fs.inode i).ref ≠ 0) → stops .igetNoInodes) :
    Meets (FileSystem.iget ROOTDEV n) fs stops fun i fs' => ∃ name', name' i = n ∧
      (∀ j, 0 < (fs.inode j).ref → name' j = name j) ∧
      At sb uses ⟨i :: held, locks, loose⟩ name' node fs' := by
  refine ⟨fun i fs' run => ?_, fun error run => ?_⟩
  · have sound := iget_sound here.sound positive inside run
    rcases iget_ends run with ⟨pos, -, number, rfl⟩ | ⟨idle, absent, rfl⟩
    · have isN : name i = n := (here.named pos).symm.trans number
      refine ⟨name, isN, fun _ _ => rfl, here.entry pos sound rfl ?_ (fun j different => ?_) ?_
        (fun _ _ => Iff.rfl) (fun _ _ => Iff.rfl) (fun member => Or.inl member)
        (fun _ => List.mem_cons_self) id⟩
      · rw [here.refs, List.count_cons_self]
        push_cast
        omega
      · exact List.count_cons_of_ne (Ne.symm different)
      · exact here.locked i
    · have apart : ∀ j, 0 < (fs.inode j).ref → j ≠ i := fun j pos same => by
        rw [same, idle] at pos
        exact lt_irrefl _ pos
      have fresh : ∀ j, 0 < (fs.inode j).ref → name j ≠ n := fun j pos same =>
        absent j pos (here.dev pos) (by rw [here.named pos, same])
      have old : ∀ j, 0 < (fs.inode j).ref → Function.update name i n j = name j := fun j pos =>
        Function.update_of_ne (apart j pos) _ _
      have unused : uses i = 0 ∧ held.count i = 0 := by
        have := here.refs i
        have := here.nonneg i
        dsimp only at *
        omega
      refine ⟨Function.update name i n, Function.update_self _ _ _, old, sound, here.nodes, here.ok,
        here.nonneg, fun j => ?_, fun j => ?_, fun {j} pos => ?_, fun {j} used => ?_,
        fun {m x} isNode zero => ?_, fun {m} member => ?_, fun {j x} pos isNode zero => ?_⟩
      · by_cases isI : j = i
        · subst isI
          rw [Fs.setInode_self, List.count_cons_self, unused.1, unused.2]
          rfl
        · rw [Fs.setInode_of_ne _ _ _ isI, here.refs, List.count_cons_of_ne (Ne.symm isI)]
      · by_cases isI : j = i
        · subst isI
          rw [Fs.setInode_self]
          exact here.locked j
        · rw [Fs.setInode_of_ne _ _ _ isI]
          exact here.locked j
      · by_cases isI : j = i
        · subst isI
          rw [Fs.setInode_self, Function.update_self]
        · rw [Fs.setInode_of_ne _ _ _ isI] at pos ⊢
          rw [old j pos]
          exact here.named pos
      · rw [old j (here.ref_pos_of_uses used)]
        exact here.used used
      · refine (here.kept isNode zero).imp_right ?_
        rintro ⟨j, used, same⟩
        refine ⟨j, used, ?_⟩
        rw [old j (here.ref_pos_of_uses used), same]
      · obtain ⟨j, member, same⟩ := here.loose member
        refine ⟨j, List.mem_cons_of_mem _ member, ?_⟩
        rw [old j (here.ref_pos_of_held member), same]
      · by_cases isI : j = i
        · -- an inode without links is referenced, so its entry is not a new one
          subst isI
          rw [Function.update_self] at isNode
          rcases here.kept isNode zero with member | ⟨k, used, same⟩
          · obtain ⟨k, member, same⟩ := here.loose member
            exact absurd same (fresh k (here.ref_pos_of_held member))
          · exact absurd same (fresh k (here.ref_pos_of_uses used))
        · rw [Fs.setInode_of_ne _ _ _ isI] at pos ⊢
          rw [old j pos] at isNode
          exact here.seen pos isNode zero
  · obtain ⟨rfl, busy⟩ := iget_stops run
    exact full busy

/-- `idup` takes another reference. -/
theorem idup (here : At sb uses ⟨held, locks, loose⟩ name node fs) (pos : 0 < (fs.inode i).ref) :
    Meets (FileSystem.idup i) fs stops fun r fs' => r = i ∧
      At sb uses ⟨i :: held, locks, loose⟩ name node fs' := by
  refine .of_ok (a := i) rfl ⟨rfl, here.entry pos (idup_sound here.sound pos rfl) rfl ?_
    (fun j different => ?_) (here.locked i) (fun _ _ => Iff.rfl) (fun _ _ => Iff.rfl)
    (fun member => Or.inl member) (fun _ => List.mem_cons_self) id⟩
  · rw [here.refs, List.count_cons_self]
    push_cast
    omega
  · exact List.count_cons_of_ne (Ne.symm different)

/-- `ilock` locks an allocated inode; it sleeps on no lock but those in hand. -/
theorem ilock (here : At sb uses ⟨held, locks, loose⟩ name node fs) (pos : 0 < (fs.inode i).ref)
    (free : i ∉ locks) (typed : node (name i) = none → stops .ilockNoType) :
    Meets (FileSystem.ilock sb i) fs stops fun _ fs' => node (name i) ≠ none ∧
      At sb uses ⟨held, i :: locks, loose⟩ name node fs' := by
  have unlocked : (fs.inode i).lock = false :=
    Bool.eq_false_of_not_eq_true (mt (here.locked i).mp free)
  refine ⟨fun _ fs' run => ?_, fun error run => ?_⟩
  · have sound := ilock_sound here.sound run
    obtain ⟨-, -, inUse, rfl⟩ := ilock_ends here.sound.table run
    rw [here.named pos] at inUse
    refine ⟨?_, here.entry pos sound rfl (here.refs i) (fun _ _ => rfl)
      (iff_of_true rfl List.mem_cons_self) (fun j different => ?_) (fun _ _ => Iff.rfl)
      (fun member => Or.inl member) (fun member => ?_) fun _ => rfl⟩
    · rw [← here.nodes, nodeAt_of_inUse inUse]
      exact nofun
    · exact List.mem_cons.trans (or_iff_right different)
    · obtain ⟨j, held, same⟩ := here.loose member
      rwa [← here.name_inj pos (here.ref_pos_of_held held) same]
  · rw [FileSystem.ilock] at run
    dsimp only at run
    have held : ¬ (fs.inode i).ref < 1 := by omega
    rw [if_neg held, if_neg (by rw [unlocked]; exact Bool.false_ne_true)] at run
    split_ifs at run with valid untyped
    cases run
    refine typed ?_
    rw [← here.nodes, nodeAt_eq_none, ← here.named pos]
    exact fun inUse => inUse.2.2 untyped

/-- `iunlock` gives a lock back. -/
theorem iunlock (here : At sb uses ⟨held, i :: locks, loose⟩ name node fs) (once : i ∉ locks) :
    Meets (FileSystem.iunlock i) fs stops fun _ fs' =>
      At sb uses ⟨held, locks, loose⟩ name node fs' := by
  have isLocked := (here.locked i).mpr List.mem_cons_self
  have pos := (here.sound.table.locked isLocked).1
  have run : FileSystem.iunlock i fs = .ok ((), fs.setInode i { fs.inode i with lock := false }) := by
    refine if_neg fun failing => failing.elim (fun unlocked => ?_) fun unreferenced => by omega
    rw [isLocked] at unlocked
    cases unlocked
  refine .of_ok run (here.entry pos (iunlock_sound here.sound run) rfl (here.refs i)
    (fun _ _ => rfl) (iff_of_false Bool.false_ne_true once) (fun j different => ?_)
    (fun _ _ => Iff.rfl) (fun member => Or.inl member) (fun member => ?_) id)
  · exact (List.mem_cons.trans (or_iff_right different)).symm
  · obtain ⟨j, held, same⟩ := here.loose member
    rwa [← here.name_inj pos (here.ref_pos_of_held held) same]

/-- `iput` drops a reference, and frees the inode when it was the last one and no link is left. -/
theorem iput (here : At sb uses ⟨i :: held, locks, loose⟩ name node fs) (free : i ∉ locks) :
    Meets (Namespace.iput sb i).run fs stops fun _ fs' =>
      At sb uses ⟨held, locks, loose.filter fun n => n ≠ name i ∨ i ∈ held⟩ name
        (if 0 < uses i + held.count i then node else reclaim node (name i)) fs' := by
  have pos := here.ref_pos_of_held (i := i) List.mem_cons_self
  have unlocked : (fs.inode i).lock = false :=
    Bool.eq_false_of_not_eq_true (mt (here.locked i).mp free)
  have nonneg := here.nonneg i
  have total : (fs.inode i).ref = uses i + held.count i + 1 := by
    have here := here.refs i
    dsimp only at here
    rw [List.count_cons_self] at here
    push_cast at here
    omega
  have notLocked : (fs.inode i).lock = true → False := fun locked => by
    rw [unlocked] at locked
    cases locked
  have counts : ∀ j, j ≠ i → held.count j = (i :: held).count j := fun j different =>
    (List.count_cons_of_ne (Ne.symm different)).symm
  have looses : ∀ n, n ≠ name i →
      (n ∈ loose.filter (fun n => n ≠ name i ∨ i ∈ held) ↔ n ∈ loose) := fun n different => by
    simp [different]
  have still : name i ∈ loose.filter (fun n => n ≠ name i ∨ i ∈ held) → i ∈ held := fun member => by
    simpa using (List.mem_filter.mp member).2
  have nlink : ∀ x, (fs.inode i).valid = true → node (name i) = some x →
      (fs.inode i).nlink = x.nlink := fun x valid isNode => by
    have cached := here.sound.table.cached pos valid
    rw [← here.nodes, ← here.named pos, nodeAt_of_inUse cached.inUse, ← cached.same] at isNode
    exact congrArg Node.nlink (Option.some.inj isNode)
  rw [run_iput]
  refine Returns.meets ?_
  obtain ⟨⟨⟩, fs', run, sound, outcome⟩ :=
    iput_spec here.sound pos fun locked => (notLocked locked).elim
  refine ⟨(), fs', run, ?_⟩
  by_cases more : 0 < uses i + held.count i
  · rw [if_pos more]
    rcases outcome with ⟨-, rfl⟩ | ⟨one, -⟩
    · refine here.entry pos sound rfl (by dsimp only; omega) counts (here.locked i)
        (fun _ _ => Iff.rfl) looses (fun member => ?_) still id
      by_cases inHand : i ∈ held
      · exact Or.inl (List.mem_filter.mpr ⟨member, by simpa using inHand⟩)
      · rw [List.count_eq_zero_of_not_mem inHand] at more
        exact Or.inr (by omega)
    · omega
  · rw [if_neg more]
    have unused : ¬ 0 < uses i := by omega
    rcases outcome with ⟨notLast, rfl⟩ | ⟨-, valid, zero, touches, entry, own⟩
    · have linked : ∀ x, node (name i) = some x → x.nlink ≠ 0 := fun x isNode zero => by
        have valid := here.seen pos isNode zero
        exact notLast ⟨by omega, valid, (nlink x valid isNode).trans zero⟩
      rw [reclaim_eq linked]
      exact here.put pos sound rfl (Touches.refl _ _ _) (here.nodes _) (fun _ _ => rfl)
        (fun x isNode => here.ok isNode) (by dsimp only; omega) counts (here.locked i)
        (fun _ _ => Iff.rfl) here.used (fun x isNode zero => (linked x isNode zero).elim) looses
        still fun _ x isNode zero => (linked x isNode zero).elim
    · rw [here.named pos] at touches own
      have cached := here.sound.table.cached pos valid
      have isNode := nodeAt_of_inUse cached.inUse
      rw [here.named pos, here.nodes] at isNode
      rw [reclaim_unlinked isNode ((nlink _ valid isNode).symm.trans zero)]
      have gone : ∀ x, Function.update node (name i) none (name i) ≠ some x := fun x isNode => by
        rw [Function.update_self] at isNode
        cases isNode
      have freed : nodeAt sb fs'.disk (name i) = Function.update node (name i) none (name i) := by
        rw [Function.update_self, nodeAt_eq_none]
        intro inUse
        refine inUse.2.2 ?_
        rw [own]
      rw [entry] at sound ⊢
      exact here.put pos sound rfl touches freed
        (fun n different => Function.update_of_ne different _ _)
        (fun x isNode => (gone x isNode).elim) (by dsimp only; omega) counts
        (iff_of_false notLocked free) (fun _ _ => Iff.rfl) (fun used => (unused used).elim)
        (fun x isNode => (gone x isNode).elim) looses still
        fun _ x isNode => (gone x isNode).elim

end Table

/-! ### Locked inodes -/

/-- The fields of an in-memory inode are those of the node. -/
structure Shows (ip : Inode) (n : Nat) (x : Node) : Prop where
  type : ip.type = x.type
  major : ip.major = x.major
  minor : ip.minor = x.minor
  nlink : ip.nlink = x.nlink
  size : ip.size = x.bytes.length
  inum : ip.inum = n
  dev : ip.dev = ROOTDEV

section Locked

variable {held locks : List Ip} {loose : List Nat} {stops : Halt → Prop} {x : Node}

/-- The node of a locked inode. -/
theorem exists_node (here : At sb uses hand name node fs) (lock : i ∈ hand.locks) :
    ∃ x, node (name i) = some x ∧ Shows (fs.inode i) (name i) x ∧
      x.bytes = content sb fs.disk (name i) := by
  have isLocked := (here.locked i).mpr lock
  have pos := (here.sound.table.locked isLocked).1
  have cached := here.sound.cached_of_locked isLocked
  have number := here.named pos
  have isNode := nodeAt_of_inUse cached.inUse
  rw [number, here.nodes, ← number, ← cached.same, number] at isNode
  refine ⟨_, isNode, ⟨rfl, rfl, rfl, rfl, ?_, number, here.dev pos⟩, rfl⟩
  rw [nodeOf, content_length, ← number, cached.same]

theorem shows (here : At sb uses hand name node fs) (lock : i ∈ hand.locks)
    (isNode : node (name i) = some x) :
    Shows (fs.inode i) (name i) x ∧ x.bytes = content sb fs.disk (name i) := by
  obtain ⟨x', isNode', here⟩ := here.exists_node lock
  rw [isNode] at isNode'
  cases isNode'
  exact here

/-- Reading the fields of a locked inode. -/
theorem inode (here : At sb uses hand name node fs) (lock : i ∈ hand.locks) :
    Meets (Namespace.inode i) fs stops fun ip fs' => fs' = fs ∧
      ∃ x, node (name i) = some x ∧ Shows ip (name i) x := by
  obtain ⟨x, isNode, shows, -⟩ := here.exists_node lock
  exact .of_ok rfl ⟨rfl, x, isNode, shows⟩

/-- A step on a locked inode, on disk and in its entry, that leaves it allocated. -/
theorem step (here : At sb uses ⟨held, locks, loose⟩ name node fs) (lock : i ∈ locks)
    {after : Disk} {ip : Inode} (sound : (fs.put i after ip).Sound sb)
    (entry : ip.inum = (fs.inode i).inum ∧ ip.ref = (fs.inode i).ref ∧
      ip.lock = (fs.inode i).lock ∧ ip.valid = (fs.inode i).valid)
    (touches : Touches sb (name i) fs.disk after) (own : nodeAt sb after (name i) = some x)
    (ok : NodeOk sb (name i) x) (linked : x.nlink ≠ 0 ∨ name i ∈ loose ∨ 0 < uses i) :
    At sb uses ⟨held, locks, loose⟩ name (Function.update node (name i) (some x))
      (fs.put i after ip) := by
  have isLocked := (here.locked i).mpr lock
  obtain ⟨pos, valid⟩ := here.sound.table.locked isLocked
  have self : Function.update node (name i) (some x) (name i) = some x := Function.update_self _ _ _
  refine here.put pos sound entry.1 touches (own.trans self.symm)
    (fun n different => Function.update_of_ne different _ _) (fun x' isNode => ?_)
    (entry.2.1.trans (here.refs i)) (fun _ _ => rfl)
    (by rw [entry.2.2.1]; exact here.locked i) (fun _ _ => Iff.rfl) (fun _ => by rw [self]; exact nofun)
    (fun x' isNode zero => ?_) (fun _ _ => Iff.rfl) (fun member => ?_)
    fun _ _ _ _ => entry.2.2.2.trans valid
  · rw [self] at isNode
    cases isNode
    exact ok
  · rw [self] at isNode
    cases isNode
    exact linked.resolve_left fun nonzero => nonzero zero
  · obtain ⟨j, held, same⟩ := here.loose member
    rwa [← here.name_inj pos (here.ref_pos_of_held held) same]

/-- An inode in hand may lose its links. -/
theorem loosen (here : At sb uses ⟨held, locks, loose⟩ name node fs) (member : i ∈ held) :
    At sb uses ⟨held, locks, name i :: loose⟩ name node fs := by
  refine here.loose_subset (fun n isLoose => ?_) (fun n isLoose => Or.inl (List.mem_cons_of_mem _ isLoose))
    (fun _ => rfl) fun _ => Iff.rfl
  rcases List.mem_cons.mp isLoose with rfl | isLoose
  · exact ⟨i, member, rfl⟩
  · exact here.loose isLoose

/-- Assigning to fields of a locked inode and writing it back. -/
theorem iupdate (here : At sb uses ⟨held, locks, loose⟩ name node fs) (lock : i ∈ locks)
    (isNode : node (name i) = some x) {dip : Dinode} {x' : Node} (same : nodeOf dip x.bytes = x')
    (type : x'.type = x.type) (size : dip.size = (fs.inode i).size)
    (addrs : dip.addrs = (fs.inode i).addrs)
    (linked : x'.nlink ≠ 0 ∨ name i ∈ loose ∨ 0 < uses i) :
    Meets (Fs.iupdate sb i) (fs.setInode i { fs.inode i with toDinode := dip }) stops fun _ fs' =>
      At sb uses ⟨held, locks, loose⟩ name (Function.update node (name i) (some x')) fs' := by
  have isLocked := (here.locked i).mpr lock
  have cached := here.sound.cached_of_locked isLocked
  have number := here.named (here.sound.table.locked isLocked).1
  obtain ⟨shows, bytes⟩ := here.shows lock isNode
  have xOk := here.ok isNode
  have allocated : dip.type ≠ 0 := by
    have typeSame : dip.type = x'.type := congrArg Node.type same
    rw [typeSame, type]
    exact xOk.type
  have sizeDisk : dip.size = (dinode sb fs.disk (fs.inode i).inum).size := by
    rw [size, cached.same]
  have addrsDisk : dip.addrs = (dinode sb fs.disk (fs.inode i).inum).addrs := by
    rw [addrs, cached.same]
  obtain ⟨image, touches, own⟩ := here.sound.image.setFields cached.inUse allocated sizeDisk addrsDisk
  have inUse : InUse sb (dinode sb (writeDinode sb fs.disk (fs.inode i).inum dip))
      (fs.inode i).inum := ⟨cached.inUse.1, cached.inUse.2.1, by rw [own]; exact allocated⟩
  have contents : content sb (writeDinode sb fs.disk (fs.inode i).inum dip) (fs.inode i).inum =
      x.bytes := by
    rw [content_writeDinode here.sound.image cached.inUse own addrsDisk (le_of_eq sizeDisk), number,
      ← bytes, size, shows.size, List.take_length]
  have run : Fs.iupdate sb i (fs.setInode i { fs.inode i with toDinode := dip }) =
      .ok ((), fs.put i (writeDinode sb fs.disk (fs.inode i).inum dip)
        { fs.inode i with toDinode := dip }) := by
    rw [Fs.iupdate, Fs.setInode_self]
    rfl
  refine .of_ok run (here.step lock (here.sound.step isLocked image touches ⟨inUse, own.symm⟩
    ⟨rfl, rfl⟩ ⟨rfl, rfl⟩) ⟨rfl, rfl, rfl, rfl⟩ (number ▸ touches) ?_ ⟨?_, ?_, ?_⟩ linked)
  · rw [← number, nodeAt_of_inUse inUse, own, contents, same]
  · rw [type]
    exact xOk.type
  · rw [← same]
    exact xOk.small
  · rw [type, ← same]
    exact xOk.dir

/-- Reading a locked inode into kernel memory. -/
theorem readi (here : At sb uses hand name node fs) (lock : i ∈ hand.locks)
    (isNode : node (name i) = some x) (off n : UInt32) :
    Meets (Fs.readi sb i (fun _ _ => false) off n) fs stops fun r fs' => fs' = fs ∧
      r.1 = readable x.bytes.length off n ∧
      r.2 = (x.bytes.drop off.toNat).take (readable x.bytes.length off n) := by
  have isLocked := (here.locked i).mpr lock
  have number := here.named (here.sound.table.locked isLocked).1
  obtain ⟨shows, bytes⟩ := here.shows lock isNode
  rcases Fs.readi_spec here.sound isLocked (fun _ _ => false) off n with
    ⟨-, large⟩ | ⟨r, copied, run, ⟨rfl, rfl⟩ | ⟨-, _, _, fault⟩⟩
  · have small := (here.ok isNode).small
    rw [shows.size] at large
    omega
  · rw [shows.size, number, ← bytes] at run
    exact .of_ok run ⟨rfl, rfl, rfl⟩
  · cases fault

/-- What `writei` leaves when it has stored something, or nothing. -/
theorem wrote (here : At sb uses ⟨held, locks, loose⟩ name node fs) (lock : i ∈ locks)
    (isNode : node (name i) = some x) {src : CopyIn} {off n tot hi : Nat} {after : Disk} {ip : Inode}
    (written : Written sb src (fs.inode i) off n fs.disk after ip tot hi)
    (room : off + n ≤ MAXFILE * BSIZE) (sound : (fs.put i after ip).Sound sb)
    (dir : x.type = T_DIR → DirOk sb (name i) (content sb after (name i))) :
    At sb uses ⟨held, locks, loose⟩ name
      (Function.update node (name i) (some { x with bytes := content sb after (name i) }))
      (fs.put i after ip) := by
  have isLocked := (here.locked i).mpr lock
  have pos := (here.sound.table.locked isLocked).1
  have number := here.named pos
  have xOk := here.ok isNode
  obtain ⟨shows, -⟩ := here.shows lock isNode
  have change := written.change
  have sameNumber : ip.inum = name i := by
    rw [change]
    exact number
  have inUse := written.cached.inUse
  rw [sameNumber] at inUse
  have own : dinode sb after (name i) = ip.toDinode := by
    rw [written.cached.same, sameNumber]
  have sizeLe : ip.size ≤ MAXFILE * BSIZE := by
    have := xOk.small
    have := shows.size
    have := written.upper
    rw [change]
    dsimp only
    omega
  refine here.step lock sound ?_ (number ▸ written.touches) ?_ ⟨xOk.type, ?_, dir⟩ ?_
  · rw [change]
    exact ⟨rfl, rfl, rfl, rfl⟩
  · rw [nodeAt_of_inUse inUse, own, change]
    exact congrArg some (Node.ext shows.type shows.major shows.minor shows.nlink rfl)
  · dsimp only
    rwa [content_length, own]
  · by_cases zero : x.nlink = 0
    · refine Or.inr ((here.kept isNode zero).imp_right ?_)
      rintro ⟨j, used, same⟩
      rwa [← here.name_inj pos (here.ref_pos_of_uses used) same]
    · exact Or.inl zero

/-- Writing from kernel memory to a locked inode that is no directory, or an entry of a directory. -/
theorem writei (here : At sb uses ⟨held, locks, loose⟩ name node fs) (lock : i ∈ locks)
    (isNode : node (name i) = some x) {data : List UInt8} {off n : UInt32}
    (len : n.toNat = data.length)
    (dir : x.type = T_DIR → 0 < n.toNat ∧ off.toNat % BSIZE + n.toNat ≤ BSIZE ∧
      DirOk sb (name i) (overwrite x.bytes off.toNat data)) :
    Meets (Fs.writei sb i (.kernel data) off n) fs stops fun r fs' =>
      (Rejects x.bytes.length off n ∧ r = -1 ∧ fs' = fs) ∨
      (¬ Rejects x.bytes.length off n ∧ ∃ tot : Nat, r = tot ∧ tot ≤ data.length ∧
        (0 < n.toNat → off.toNat % BSIZE + n.toNat ≤ BSIZE →
          ∃ middle ip addr, bmap sb fs.disk (fs.inode i) (off.toNat / BSIZE) = .ok (middle, ip, addr) ∧
            tot = if addr = 0 then 0 else data.length) ∧
        At sb uses ⟨held, locks, loose⟩ name (Function.update node (name i)
          (some { x with bytes := overwrite x.bytes off.toNat (data.take tot) })) fs') := by
  have isLocked := (here.locked i).mpr lock
  have pos := (here.sound.table.locked isLocked).1
  have number := here.named pos
  have xOk := here.ok isNode
  have cached := here.sound.cached_of_locked isLocked
  obtain ⟨shows, bytes⟩ := here.shows lock isNode
  obtain ⟨rejected, accepted⟩ := Fs.writei_spec here.sound isLocked (.kernel data) off n
  rw [shows.size] at rejected accepted
  by_cases rejects : Rejects x.bytes.length off n
  · exact .of_ok (rejected rejects) (Or.inl ⟨rejects, rfl, rfl⟩)
  · obtain ⟨after, ip, tot, hi, run, written, sound⟩ := accepted rejects
    have checks := rejects
    unfold Rejects at checks
    have upper := written.upper
    have once : 0 < n.toNat → off.toNat % BSIZE + n.toNat ≤ BSIZE →
        ∃ middle ip addr, bmap sb fs.disk (fs.inode i) (off.toNat / BSIZE) = .ok (middle, ip, addr) ∧
          tot = if addr = 0 then 0 else data.length := by
      intro positive fits
      obtain ⟨⟨after', ip', r⟩, inner, rest⟩ := bind_eq_ok.mp run
      obtain rfl : r = tot := (Prod.mk.inj (Except.ok.inj rest)).1
      rw [← len]
      exact writei_block (fun _ _ => rfl) positive fits (by rwa [shows.size]) inner
    have contents : content sb after (name i) = overwrite x.bytes off.toNat (data.take tot) := by
      have here := written.content_eq cached (fun _ _ => rfl) (by rw [shows.size]; omega)
        (by rw [shows.size]; exact xOk.small) (by omega)
      rwa [number, ← bytes, kernel_bytes (by omega)] at here
    refine .of_ok run (Or.inr ⟨rejects, tot, rfl, by omega, once, ?_⟩)
    rw [← contents]
    refine here.wrote lock isNode written (by omega) sound fun isDir => ?_
    obtain ⟨positive, fits, ok⟩ := dir isDir
    obtain ⟨_, _, addr, -, all⟩ := once positive fits
    rw [contents, all]
    split_ifs
    · rw [List.take_zero, overwrite_nil]
      exact xOk.dir isDir
    · rwa [List.take_length]

/-- Truncating a locked file. -/
theorem itrunc (here : At sb uses ⟨held, locks, loose⟩ name node fs) (lock : i ∈ locks)
    (isNode : node (name i) = some x) (file : x.type ≠ T_DIR) :
    Meets (Fs.itrunc sb i) fs stops fun _ fs' =>
      At sb uses ⟨held, locks, loose⟩ name
        (Function.update node (name i) (some { x with bytes := [] })) fs' := by
  have isLocked := (here.locked i).mpr lock
  have pos := (here.sound.table.locked isLocked).1
  have number := here.named pos
  have xOk := here.ok isNode
  obtain ⟨shows, -⟩ := here.shows lock isNode
  obtain ⟨after, run, touches, sound⟩ := Fs.itrunc_spec here.sound isLocked
  have cached := sound.cached_of_locked (i := i) (by rw [Fs.put_self]; exact isLocked)
  rw [Fs.put_self, Fs.put_disk] at cached
  have inUse := cached.inUse
  have same := cached.same
  rw [show (fs.inode i).truncated.inum = name i from number] at inUse same
  refine .of_ok run (here.step lock sound ⟨rfl, rfl, rfl, rfl⟩ (number ▸ touches) ?_
    ⟨xOk.type, Nat.zero_le _, fun isDir => absurd isDir file⟩ ?_)
  · rw [nodeAt_of_inUse inUse, ← same, content, ← same]
    exact congrArg some (Node.ext shows.type shows.major shows.minor shows.nlink rfl)
  · by_cases zero : x.nlink = 0
    · refine Or.inr ((here.kept isNode zero).imp_right ?_)
      rintro ⟨j, used, same⟩
      rwa [← here.name_inj pos (here.ref_pos_of_uses used) same]
    · exact Or.inl zero

end Locked

end At

end Csc3150.Namespace
