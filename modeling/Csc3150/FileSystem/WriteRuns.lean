/-
**What a run of writes stores.**

Writes that lie inside a file store their bytes and allocate nothing, so what the file holds afterwards
and what they log is known from the state before the run.

* `Opened.writeAll_inside` — the bytes of the file after writes inside it;
* `Writes.run_long` — writes that had room have made the file as long as they reach;
* `TooBig`, `Opened.writeAll_tooBig` — when a `log_write` of the run finds the log full.
-/

import Csc3150.FileSystem.InodeCalls
import Csc3150.FileSystem.LogSpace

namespace Csc3150.FileSystem

open ByteBuffer Outcome

variable {sb : Superblock} {n : UInt32} {start o : Opened} {offs : List UInt32} {stored : Set Nat}
  {pages : List (UInt32 × List UInt8)}

/-! ### The bytes of the file -/

/-- The bytes of the open file on disk. -/
def Opened.bytes (sb : Superblock) (o : Opened) : List UInt8 := content sb o.disk o.inode.inum

theorem Opened.bytes_length (cached : Cached sb o.disk o.inode) :
    (o.bytes sb).length = o.inode.size := by
  rw [bytes, content_length, ← cached.same]

theorem kernel_bytes (bytes : List UInt8) : (CopyIn.kernel bytes).bytes 0 bytes.length = bytes := by
  refine List.ext_getElem? fun k => ?_
  by_cases inside : k < bytes.length
  · rw [CopyIn.bytes, read_getElem? _ _ inside, Nat.zero_add]
    show some (bytes[k]?.getD 0) = bytes[k]?
    rw [List.getElem?_eq_getElem inside, Option.getD_some]
  · rw [List.getElem?_eq_none (by rw [CopyIn.bytes, read_length]; omega),
      List.getElem?_eq_none (by omega)]

/-- The pages lie inside a file of this size. -/
def Inside (n : UInt32) (size : Nat) (pages : List (UInt32 × List UInt8)) : Prop :=
  size ≤ MAXFILE * BSIZE ∧ ∀ page ∈ pages, page.2.length = n.toNat ∧ page.1.toNat + n.toNat ≤ size

theorem Inside.accepts {size : Nat} (inside : Inside n size pages) {page : UInt32 × List UInt8}
    (member : page ∈ pages) : ¬ Rejects size page.1 n := by
  have small := inside.1
  have total : MAXFILE * BSIZE < 2 ^ 32 := by decide
  have fits := (inside.2 page member).2
  unfold Rejects
  omega

theorem Inside.head {size : Nat} {page : UInt32 × List UInt8} (inside : Inside n size (page :: pages)) :
    Inside n size [page] := by
  refine ⟨inside.1, fun other member => ?_⟩
  rw [List.mem_singleton.mp member]
  exact inside.2 page List.mem_cons_self

theorem Inside.tail {size : Nat} {page : UInt32 × List UInt8} (inside : Inside n size (page :: pages)) :
    Inside n size pages :=
  ⟨inside.1, fun other member => inside.2 other (List.mem_cons_of_mem _ member)⟩

/-- After writes inside the file: it holds their bytes, and is as before elsewhere. -/
structure Stores (sb : Superblock) (n : Nat) (o : Opened) (pages : List (UInt32 × List UInt8))
    (o' : Opened) : Prop where
  image : Image sb o'.disk
  cached : Cached sb o'.disk o'.inode
  inode : o'.inode = { o.inode with addrs := o'.inode.addrs }
  stored : ∀ page ∈ pages, ∀ b < n, (o'.bytes sb)[page.1.toNat + b]? = page.2[b]?
  others : ∀ m, (∀ page ∈ pages, m < page.1.toNat ∨ page.1.toNat + n ≤ m) →
    (o'.bytes sb)[m]? = (o.bytes sb)[m]?

/-- One write inside the file. -/
theorem Opened.writei_inside (image : Image sb o.disk) (cached : Cached sb o.disk o.inode)
    {page : UInt32 × List UInt8} (inside : Inside n o.inode.size [page]) :
    ∃ o', o.writei sb page.1 page.2 = ((n.toNat : Int), o') ∧ Stores sb n.toNat o [page] o' ∧
      ∃ earlier, o'.log = IBLOCK o.inode.inum sb :: (earlier ++ o.log) := by
  have accepts := inside.accepts List.mem_cons_self
  have quiet : ∀ tot m, (CopyIn.kernel page.2).fault tot m = none := fun _ _ => rfl
  obtain ⟨length, fits⟩ := inside.2 page List.mem_cons_self
  obtain ⟨after, ip', tot, hi, run, written⟩ :=
    (writei_spec image cached (.kernel page.2) page.1 n).2 accepts
  obtain ⟨after', ip'', tot', new, run', result, logs⟩ :=
    Opened.writei_accepts image cached length accepts
  rw [run] at run'
  simp only [Except.ok.injEq, Prod.mk.injEq, Nat.cast_inj] at run'
  obtain ⟨rfl, rfl, rfl⟩ := run'
  have size : ip'.size = max o.inode.size (page.1.toNat + tot) := by rw [written.change]
  have number : ip'.inum = o.inode.inum := by rw [written.change]
  -- the blocks of the file are all there, so the loop does not stop
  have all : tot = n.toNat := by
    by_contra short
    have less := Nat.lt_of_le_of_ne written.upper short
    have small : (page.1.toNat + tot) / BSIZE < MAXFILE := by
      have bounded := inside.1
      exact Nat.div_lt_of_lt_mul (by rw [Nat.mul_comm]; omega)
    have present := logs.image.filled ip'.inum logs.cached.inUse _ small
    rw [← logs.cached.same] at present
    have begins := Nat.div_mul_le_self (page.1.toNat + tot) BSIZE
    exact present (by omega) (logs.full less).2
  subst all
  have same' : max o.inode.size (page.1.toNat + n.toNat) = o.inode.size := Nat.max_eq_left fits
  have change : ip' = { o.inode with addrs := ip'.addrs } := by
    have change := written.change
    rwa [same'] at change
  obtain ⟨o', isO'⟩ : ∃ o' : Opened,
    o' = ⟨after, ip', IBLOCK o.inode.inum sb :: (new ++ o.log)⟩ := ⟨_, rfl⟩
  have bytes : o'.bytes sb = overwrite (o.bytes sb) page.1.toNat page.2 := by
    have content := written.content_eq cached quiet (by omega) inside.1 (fits.trans inside.1)
    rw [← length, kernel_bytes] at content
    rw [isO', Opened.bytes, number]
    exact content
  have begins : page.1.toNat ≤ (o.bytes sb).length := by
    rw [Opened.bytes_length cached]
    omega
  refine ⟨o', isO' ▸ result, ⟨?_, ?_, ?_, fun other member b less => ?_, fun m outside => ?_⟩, new, ?_⟩
  · rw [isO']
    exact written.image
  · rw [isO']
    exact written.cached
  · rw [isO']
    exact change
  · obtain rfl := List.mem_singleton.mp member
    rw [bytes, overwrite_getElem? begins, if_pos ⟨Nat.le_add_right _ _, by omega⟩,
      Nat.add_sub_cancel_left]
  · have away := outside page List.mem_cons_self
    rw [bytes, overwrite_getElem? begins, if_neg (by omega)]
  · rw [isO']

/-- **Writes inside the file**, apart from each other, store their bytes and change no others. -/
theorem Opened.writeAll_inside (image : Image sb o.disk) (cached : Cached sb o.disk o.inode)
    (inside : Inside n o.inode.size pages) (apart : pages.Pairwise fun page other =>
      page.1.toNat + n.toNat ≤ other.1.toNat ∨ other.1.toNat + n.toNat ≤ page.1.toNat) :
    ∃ o', o.writeAll sb pages = (true, o') ∧ Stores sb n.toNat o pages o' := by
  induction pages generalizing o with
  | nil =>
    exact ⟨o, rfl, image, cached, rfl, fun _ member => absurd member List.not_mem_nil, fun _ _ => rfl⟩
  | cons page rest ih =>
    rw [List.pairwise_cons] at apart
    obtain ⟨o₁, wrote, first, -⟩ := Opened.writei_inside image cached inside.head
    have size : o₁.inode.size = o.inode.size := by rw [first.inode]
    obtain ⟨o', run, later⟩ := ih first.image first.cached (size ▸ inside.tail) apart.2
    refine ⟨o', ?_, later.image, later.cached, ?_, fun other member b less => ?_, fun m outside => ?_⟩
    · rw [Opened.writeAll, wrote, if_neg (not_lt.mpr (Int.natCast_nonneg _))]
      exact run
    · rw [later.inode, first.inode]
    · rcases List.mem_cons.mp member with rfl | rest
      · rw [later.others, first.stored other List.mem_cons_self b less]
        intro next member
        have away := apart.1 next member
        omega
      · exact later.stored other rest b less
    · rw [later.others m fun other member => outside other (List.mem_cons_of_mem _ member)]
      refine first.others m fun other member => ?_
      rw [List.mem_singleton.mp member]
      exact outside page List.mem_cons_self

/-! ### Writes that reach past the end -/

/-- A run of writes has made the file as long as they reach, or there was no block for some byte. -/
theorem Writes.run_long (whole : ∀ page ∈ pages, page.2.length = n.toNat)
    (writes : Writes sb n.toNat start o offs stored) (done : (o.writeAll sb pages).1 = true) :
    (o.inode.size ≤ (o.writeAll sb pages).2.inode.size ∧
      ∀ page ∈ pages, page.1.toNat + n.toNat ≤ (o.writeAll sb pages).2.inode.size) ∨
    Full sb (o.writeAll sb pages).2.disk ∧ ∃ bn ∈ coveredBlocks n.toNat
        (offs ++ acceptedOffsets n o.inode.size (pages.map Prod.fst)),
      pointer (o.writeAll sb pages).2.disk (o.writeAll sb pages).2.inode.addrs (slotOf bn) = 0 := by
  induction pages generalizing o offs stored with
  | nil => exact Or.inl ⟨le_rfl, fun page member => absurd member List.not_mem_nil⟩
  | cons page rest ih =>
    have length := whole page List.mem_cons_self
    have whole' := fun other member => whole other (List.mem_cons_of_mem page member)
    rw [Opened.writeAll] at done ⊢
    rw [List.map_cons, acceptedOffsets]
    by_cases rejects : Rejects o.inode.size page.1 n
    · have negative : ((-1, o) : Int × Opened).1 < 0 := Int.negSucc_lt_zero 0
      rw [Opened.writei_rejects length rejects, if_pos negative] at done
      cases done
    · obtain ⟨tot, o', stored', result, more, -, -, size⟩ := writes.accept length rejects
      have accepted : ¬ ((tot : Int) < 0) := not_lt.mpr (Int.natCast_nonneg tot)
      rw [result, if_neg accepted] at done ⊢
      rw [if_neg rejects, List.append_cons]
      rcases size with grown | ⟨full, bn, covered, zero⟩
      · have later := ih whole' more done
        rw [grown] at later
        refine later.imp_left fun reaches => ?_
        obtain ⟨longer, fits⟩ := reaches
        dsimp only at longer fits ⊢
        refine ⟨(le_max_left _ _).trans longer, fun other member => ?_⟩
        rcases List.mem_cons.mp member with rfl | rest
        · exact (le_max_right _ _).trans longer
        · exact fits other rest
      · -- the disk stays full and the block stays missing
        obtain ⟨-, -, -, step, -, -⟩ := more.run whole'
        refine Or.inr ⟨fun b small => step.marks b small (full b small), bn, ?_, step.stays_empty full zero⟩
        exact coveredBlocks_mono (fun off member => List.mem_append_left _ member) covered

/-- A write leaves the links of the inode alone. -/
theorem Opened.writei_links (image : Image sb o.disk) (cached : Cached sb o.disk o.inode) {off : UInt32}
    {bytes : List UInt8} (length : bytes.length = n.toNat) :
    (o.writei sb off bytes).2.inode.nlink = o.inode.nlink := by
  by_cases rejects : Rejects o.inode.size off n
  · rw [Opened.writei_rejects length rejects]
  · obtain ⟨after, ip', tot, hi, run, written⟩ :=
      (writei_spec image cached (.kernel bytes) off n).2 rejects
    obtain ⟨after', ip'', tot', new, run', result, -⟩ :=
      Opened.writei_accepts image cached length rejects
    cases run.symm.trans run'
    rw [result]
    dsimp only
    rw [written.change]

theorem Writes.links (whole : ∀ page ∈ pages, page.2.length = n.toNat)
    (writes : Writes sb n.toNat start o offs stored) :
    (o.writeAll sb pages).2.inode.nlink = o.inode.nlink := by
  induction pages generalizing o offs stored with
  | nil => rfl
  | cons page rest ih =>
    have length := whole page List.mem_cons_self
    have same := @Opened.writei_links _ _ _ writes.image writes.cached page.1 _ length
    rw [Opened.writeAll]
    split_ifs with refused
    · exact same
    · by_cases rejects : Rejects o.inode.size page.1 n
      · rw [Opened.writei_rejects length rejects] at refused
        exact absurd (Int.negSucc_lt_zero 0) refused
      · obtain ⟨tot, o', stored', result, more, -⟩ := writes.accept length rejects
        rw [result] at same ⊢
        exact (ih (fun other member => whole other (List.mem_cons_of_mem page member)) more).trans same

/-- With room for the accepted writes, a run that is not turned down has made the file as long as it
reaches. -/
theorem Opened.writeAll_long (image : Image sb o.disk) (cached : Cached sb o.disk o.inode)
    (fresh : o.log = []) (whole : ∀ page ∈ pages, page.2.length = n.toNat)
    (room : o.Room sb n (pages.map Prod.fst)) (done : (o.writeAll sb pages).1 = true) :
    ∀ page ∈ pages, page.1.toNat + n.toNat ≤ (o.writeAll sb pages).2.inode.size := by
  have begins := Writes.refl (n := n) image cached fresh
  rcases begins.run_long whole done with ⟨-, fits⟩ | ⟨full, bn, covered, zero⟩
  · exact fits
  · obtain ⟨extra, final, all, -, among, -⟩ := begins.run whole
    rw [List.nil_append] at all covered
    have tree := all.image.owned.tree all.cached.inUse
    rw [← all.cached.same] at tree
    have filled : ∀ slot, Filled o.disk o.inode.addrs (o.writeAll sb pages).2.disk
        (o.writeAll sb pages).2.inode.addrs slot →
        ∃ bn ∈ coveredBlocks n.toNat (acceptedOffsets n o.inode.size (pages.map Prod.fst)),
          slot ∈ (slotOf bn).path := by
      intro slot isFilled
      obtain ⟨bn, covered, member⟩ := all.filled slot isFilled
      exact ⟨bn, coveredBlocks_mono among covered, member⟩
    exact absurd room (not_le.mpr (all.step.no_room tree filled full covered zero))

/-! ### The log -/

/-- `log_write` panics: one of the calls finds all the blocks of the log taken but the header's. -/
def TooBig (log : List Nat) : Prop :=
  ∃ block earlier, block :: earlier <:+ log ∧ LOGSIZE - 1 ≤ earlier.toFinset.card

theorem tooBig_iff {log : List Nat} : TooBig log ↔ LOGSIZE - 1 ≤ log.tail.toFinset.card := by
  constructor
  · rintro ⟨block, earlier, ⟨later, split⟩, many⟩
    refine many.trans (Finset.card_le_card ?_)
    intro b member
    rw [List.mem_toFinset] at member ⊢
    rw [← split]
    cases later with
    | nil => exact member
    | cons _ later => exact List.mem_append_right later (List.mem_cons_of_mem _ member)
  · intro many
    cases log with
    | nil => cases many
    | cons block earlier => exact ⟨block, earlier, List.suffix_refl _, many⟩

/-- Writes inside the file find all their blocks. -/
theorem missing_inside (image : Image sb o.disk) (cached : Cached sb o.disk o.inode)
    (inside : Inside n o.inode.size pages) :
    missing o.disk o.inode.addrs (coveredBlocks n.toNat (pages.map Prod.fst)) = ∅ := by
  refine Set.eq_empty_of_forall_notMem ?_
  rintro slot ⟨zero, bn, ⟨off, member, k, lower, upper, rfl⟩, path⟩
  obtain ⟨page, isPage, rfl⟩ := List.mem_map.mp member
  have fits := (inside.2 page isPage).2
  have small := inside.1
  have present := image.filled o.inode.inum cached.inUse (k / BSIZE)
    (Nat.div_lt_of_lt_mul (by rw [Nat.mul_comm]; omega))
  rw [← cached.same] at present
  have begins := Nat.div_mul_le_self k BSIZE
  exact pointer_path path (present (by omega)) zero

theorem acceptedOffsets_inside {size : Nat} (inside : Inside n size pages) :
    acceptedOffsets n size (pages.map Prod.fst) = pages.map Prod.fst := by
  induction pages with
  | nil => rfl
  | cons page rest ih =>
    have fits := (inside.2 page List.mem_cons_self).2
    rw [List.map_cons, acceptedOffsets, if_neg (inside.accepts List.mem_cons_self),
      Nat.max_eq_left fits, ih inside.tail]

/-- Writes inside the file need no free block. -/
theorem Opened.room_inside (image : Image sb o.disk) (cached : Cached sb o.disk o.inode)
    (inside : Inside n o.inode.size pages) : o.Room sb n (pages.map Prod.fst) := by
  rw [Opened.Room, acceptedOffsets_inside inside, missing_inside image cached inside, Set.ncard_empty]
  exact Nat.zero_le _

/-- They log the inode's block and a block for each file block that they cover. -/
theorem Opened.logSpace_inside (image : Image sb o.disk) (cached : Cached sb o.disk o.inode)
    (inside : Inside n o.inode.size pages) : o.logSpace sb n (pages.map Prod.fst) =
      1 + (slotOf '' coveredBlocks n.toNat (pages.map Prod.fst)).ncard := by
  rw [Opened.logSpace, acceptedOffsets_inside inside, missing_inside image cached inside,
    logBlocks_stored]

/-- A write of at most four blocks covers at most five. -/
theorem coveredBlocks_one {n : Nat} (narrow : n ≤ 4 * BSIZE) (off : UInt32) :
    (slotOf '' coveredBlocks n [off]).ncard ≤ 5 := by
  have within : coveredBlocks n [off] ⊆ Finset.Icc (off.toNat / BSIZE) (off.toNat / BSIZE + 4) := by
    rintro bn ⟨other, member, k, lower, upper, rfl⟩
    rw [List.mem_singleton.mp member] at lower upper
    rw [Finset.coe_Icc, Set.mem_Icc]
    unfold BSIZE at *
    omega
  have finite := (Finset.finite_toSet _).subset within
  calc (slotOf '' coveredBlocks n [off]).ncard ≤ (coveredBlocks n [off]).ncard :=
        Set.ncard_image_le finite
    _ ≤ (Finset.Icc (off.toNat / BSIZE) (off.toNat / BSIZE + 4) : Set Nat).ncard :=
        Set.ncard_le_ncard within (Finset.finite_toSet _)
    _ = 5 := by
        rw [Set.ncard_coe_finset, Nat.card_Icc]
        omega

/-- From the second write on, the last call logs the inode's block once more. -/
theorem Opened.writeAll_repeats (image : Image sb o.disk) (cached : Cached sb o.disk o.inode)
    (inside : Inside n o.inode.size pages) (logged : IBLOCK o.inode.inum sb ∈ o.log)
    (some : pages ≠ []) : ∃ earlier, (o.writeAll sb pages).2.log = IBLOCK o.inode.inum sb :: earlier ∧
      IBLOCK o.inode.inum sb ∈ earlier := by
  induction pages generalizing o with
  | nil => exact absurd rfl some
  | cons page rest ih =>
    obtain ⟨o₁, wrote, first, earlier, log⟩ := Opened.writei_inside image cached inside.head
    rw [Opened.writeAll, wrote, if_neg (not_lt.mpr (Int.natCast_nonneg _))]
    have same : o₁.inode.inum = o.inode.inum ∧ o₁.inode.size = o.inode.size := by
      rw [first.inode]
      exact ⟨rfl, rfl⟩
    by_cases last : rest = []
    · rw [last]
      exact ⟨earlier ++ o.log, log, List.mem_append_right _ logged⟩
    · rw [← same.1]
      refine ih first.image first.cached (same.2 ▸ inside.tail) ?_ last
      rw [log, same.1]
      exact List.mem_cons_self

/-- **The log of writes inside the file**, of at most four blocks each, overflows exactly when the blocks
that they log do not fit beside its header. -/
theorem Opened.writeAll_tooBig (image : Image sb o.disk) (cached : Cached sb o.disk o.inode)
    (fresh : o.log = []) (inside : Inside n o.inode.size pages) (narrow : n.toNat ≤ 4 * BSIZE) :
    TooBig (o.writeAll sb pages).2.log ↔ LOGSIZE - 1 ≤ o.logSpace sb n (pages.map Prod.fst) := by
  have whole : ∀ page ∈ pages, page.2.length = n.toNat := fun page member => (inside.2 page member).1
  have accepted := acceptedOffsets_inside inside
  have upper := (Opened.writeAll_log image cached fresh whole).1
  have exactly := (Opened.writeAll_log image cached fresh whole).2
    (Opened.room_inside image cached inside)
  rw [tooBig_iff]
  match pages with
  | [] =>
    rw [Opened.logSpace_none accepted]
    show LOGSIZE - 1 ≤ o.log.tail.toFinset.card ↔ _
    rw [fresh]
    exact iff_of_false (by decide) (by decide)
  | [page] =>
    have few : o.logSpace sb n ([page].map Prod.fst) ≤ 6 := by
      rw [Opened.logSpace_inside image cached inside]
      exact Nat.add_le_add_left (coveredBlocks_one narrow page.1) 1
    have tail : (o.writeAll sb [page]).2.log.tail.toFinset ⊆ (o.writeAll sb [page]).2.log.toFinset :=
      fun b member => List.mem_toFinset.mpr (List.mem_of_mem_tail (List.mem_toFinset.mp member))
    have less := Finset.card_le_card tail
    refine iff_of_false ?_ ?_ <;>
    · unfold LOGSIZE MAXOPBLOCKS
      omega
  | page :: other :: rest =>
    rw [accepted] at exactly
    rw [← exactly (List.cons_ne_nil _ _)]
    obtain ⟨o₁, wrote, first, earlier, log⟩ := Opened.writei_inside image cached inside.head
    have same : o₁.inode.inum = o.inode.inum ∧ o₁.inode.size = o.inode.size := by
      rw [first.inode]
      exact ⟨rfl, rfl⟩
    obtain ⟨before, final, again⟩ := Opened.writeAll_repeats first.image first.cached
      (same.2 ▸ inside.tail) (by rw [log, same.1]; exact List.mem_cons_self) (List.cons_ne_nil _ _)
    rw [Opened.writeAll, wrote, if_neg (not_lt.mpr (Int.natCast_nonneg _)), final, List.tail_cons,
      List.toFinset_cons, Finset.insert_eq_of_mem (List.mem_toFinset.mpr again)]

end Csc3150.FileSystem
