/-
**File bytes, and what `writei` and `readi` do to them.**

`fileByte disk addrs k` is byte `k` of a file: the byte at `k % BSIZE` in the block of logical block
`k / BSIZE`, zero where no block is mapped. Allocating blocks changes no file byte (`Grows.wrote`),
because `balloc` hands out zeroed blocks; storing into a data block changes the bytes of that logical
block of that inode alone (`Owned.store`). `Wrote` composes the two over a loop.

* `writeiLoop_spec` — the loop of `writei` stores a prefix of the source, the whole of it unless the
  disk is full or the copy fails;
* `readiLoop_spec` — the loop of `readi` copies out the file's bytes and allocates nothing when the
  blocks it reads are mapped.
-/

import Csc3150.FileSystem.Truncate

namespace Csc3150.FileSystem

open ByteBuffer Outcome Ownership

/-- Byte `k` of a file. -/
def fileByte (disk : Disk) (addrs : Fin (NDIRECT + 2) → Nat) (k : Nat) : UInt8 :=
  let b := pointer disk addrs (slotOf (k / BSIZE))
  if b = 0 then 0 else disk b (k % BSIZE)

/-- Every block of the disk is marked. -/
def Full (sb : Superblock) (disk : Disk) : Prop := ∀ b, b < sb.size → marked sb disk b = true

/-- A step that stores `byte k` at the offsets `k` from `lo` to `hi` of inode `inum`, allocating
blocks as needed, and changes nothing else. -/
structure Wrote (sb : Superblock) (inum : Nat) (byte : Nat → UInt8) (lo hi : Nat) (disk : Disk)
    (inodes : Nat → Dinode) (after : Disk) (inodes' : Nat → Dinode) : Prop where
  owned : Owned sb after inodes'
  kept : ∀ n slot, InUse sb inodes n → pointer disk (inodes n).addrs slot ≠ 0 →
    pointer after (inodes' n).addrs slot = pointer disk (inodes n).addrs slot
  bytes : ∀ n k, InUse sb inodes n → k < MAXFILE * BSIZE →
    fileByte after (inodes' n).addrs k =
      if n = inum ∧ lo ≤ k ∧ k < hi then byte k else fileByte disk (inodes n).addrs k
  others : ∀ n, n ≠ inum → inodes' n = inodes n
  same : inodes' inum = { inodes inum with addrs := (inodes' inum).addrs }
  frame : ∀ c, c < sb.bmapstart → after c = disk c
  marks : ∀ c, c < sb.size → marked sb disk c = true → marked sb after c = true

section Wrote

variable {sb : Superblock} {inum : Nat} {byte : Nat → UInt8} {lo mid hi : Nat}
  {disk middle after : Disk} {inodes inodes' inodes'' : Nat → Dinode}

/-- Allocation changes no file byte. -/
theorem Grows.wrote {path : Slot → Prop} (grows : Grows sb inum path disk inodes after inodes')
    (byte : Nat → UInt8) (lo : Nat) : Wrote sb inum byte lo lo disk inodes after inodes' where
  owned := grows.owned
  kept := grows.kept
  bytes n k inUse _ := by
    rw [if_neg (by omega), fileByte, fileByte]
    have isData := slotOf_isData (k / BSIZE)
    by_cases zero : pointer disk (inodes n).addrs (slotOf (k / BSIZE)) = 0
    · rw [if_pos zero]
      by_cases zero' : pointer after (inodes' n).addrs (slotOf (k / BSIZE)) = 0
      · rw [if_pos zero']
      · rw [if_neg zero', (grows.fresh n _ inUse zero zero').2.2.2 isData]
    · have kept := grows.kept n _ inUse zero
      rw [if_neg zero, kept, if_neg zero, grows.data n _ inUse isData zero]
  others := grows.others
  same := grows.same
  frame := grows.frame
  marks := grows.marks

theorem Wrote.inUse_iff (wrote : Wrote sb inum byte lo hi disk inodes after inodes') (n : Nat) :
    InUse sb inodes' n ↔ InUse sb inodes n := by
  by_cases isInum : n = inum
  · subst isInum
    unfold InUse
    rw [wrote.same]
  · unfold InUse
    rw [wrote.others n isInum]

/-- Two stores, one after the other. -/
theorem Wrote.trans (first : Wrote sb inum byte lo mid disk inodes middle inodes')
    (second : Wrote sb inum byte mid hi middle inodes' after inodes'') (ordered : lo ≤ mid)
    (ordered' : mid ≤ hi) : Wrote sb inum byte lo hi disk inodes after inodes'' where
  owned := second.owned
  kept n slot inUse nonzero := by
    have here := first.kept n slot inUse nonzero
    rw [second.kept n slot ((first.inUse_iff n).mpr inUse) (here ▸ nonzero), here]
  bytes n k inUse small := by
    rw [second.bytes n k ((first.inUse_iff n).mpr inUse) small, first.bytes n k inUse small]
    by_cases isInum : n = inum
    · by_cases inFirst : lo ≤ k ∧ k < mid
      · rw [if_neg (by omega), if_pos ⟨isInum, inFirst⟩, if_pos ⟨isInum, inFirst.1, by omega⟩]
      · by_cases inSecond : mid ≤ k ∧ k < hi
        · rw [if_pos ⟨isInum, inSecond⟩, if_pos ⟨isInum, by omega, inSecond.2⟩]
        · rw [if_neg (by omega), if_neg (by omega), if_neg (by omega)]
    · rw [if_neg (by omega), if_neg (by omega), if_neg (by omega)]
  others n different := (second.others n different).trans (first.others n different)
  same := by
    rw [second.same, first.same]
  frame c below := (second.frame c below).trans (first.frame c below)
  marks c small set := second.marks c small (first.marks c small set)

/-- Storing into the data block at `slotOf bn`. -/
theorem Owned.store (byte : Nat → UInt8) (layout : sb.WellFormed) (owned : Owned sb disk inodes)
    (inUse : InUse sb inodes inum) {bn : Nat} (small : bn < MAXFILE)
    (present : pointer disk (inodes inum).addrs (slotOf bn) ≠ 0) {data : Block}
    (ordered : lo ≤ hi) (within : lo / BSIZE = bn ∧ (lo < hi → (hi - 1) / BSIZE = bn))
    (stored : ∀ i, i < BSIZE → data i =
      if lo ≤ bn * BSIZE + i ∧ bn * BSIZE + i < hi then byte (bn * BSIZE + i)
      else disk (pointer disk (inodes inum).addrs (slotOf bn)) i) :
    Wrote sb inum byte lo hi disk inodes
      (logWrite disk (pointer disk (inodes inum).addrs (slotOf bn)) data) inodes := by
  have isData := slotOf_isData bn
  have outside : sb.Outside (pointer disk (inodes inum).addrs (slotOf bn)) :=
    Or.inr (owned.lower inUse present)
  have pointers : ∀ n, InUse sb inodes n → ∀ slot,
      pointer (logWrite disk (pointer disk (inodes inum).addrs (slotOf bn)) data)
        (inodes n).addrs slot = pointer disk (inodes n).addrs slot := by
    intro n inUseN
    refine pointer_congr (fun _ => rfl) fun slot index nonzero => logWrite_of_ne _ _ fun shared => ?_
    obtain ⟨-, isSlot⟩ := owned.unique inUse inUseN present shared
    exact index (isSlot ▸ isData)
  have marks : ∀ c, c < sb.size →
      marked sb (logWrite disk (pointer disk (inodes inum).addrs (slotOf bn)) data) c =
        marked sb disk c := fun c smallC => marked_logWrite layout _ _ outside smallC
  refine ⟨⟨fun b metadata => ?_, owned.exact.congr ?_ ?_⟩, ?_, ?_, fun _ _ => rfl, rfl, ?_, ?_⟩
  · have upper : b < sb.size :=
      lt_trans metadata (lt_of_le_of_lt (owned.lower inUse present) (owned.upper inUse present))
    rw [marks b upper, owned.metadata b metadata]
  · rintro ⟨n, slot⟩
    exact reference_congr Iff.rfl fun inUseN => pointers n inUseN slot
  · intro b
    refine and_congr_right fun _ => ⟨fun ⟨upper, set⟩ => ⟨upper, ?_⟩,
      fun ⟨upper, set⟩ => ⟨upper, ?_⟩⟩
    · rwa [marks b upper] at set
    · rwa [marks b upper]
  · exact fun n slot inUseN _ => pointers n inUseN slot
  · intro n k inUseN smallK
    have rest : k / BSIZE * BSIZE + k % BSIZE = k := Nat.div_add_mod' k BSIZE
    have remainder : k % BSIZE < BSIZE := Nat.mod_lt _ (by decide)
    rw [fileByte, fileByte, pointers n inUseN]
    by_cases target : n = inum ∧ k / BSIZE = bn
    · obtain ⟨rfl, rfl⟩ := target
      rw [if_neg present, if_neg present, logWrite_self, stored _ remainder, rest]
      simp only [true_and]
    · have elsewhere : ¬ (n = inum ∧ lo ≤ k ∧ k < hi) := by
        rintro ⟨rfl, lower, upper⟩
        refine target ⟨rfl, ?_⟩
        have fromBelow : lo / BSIZE ≤ k / BSIZE := Nat.div_le_div_right lower
        have fromAbove : k / BSIZE ≤ (hi - 1) / BSIZE := Nat.div_le_div_right (by omega)
        have := within.2 (by omega)
        omega
      rw [if_neg elsewhere]
      by_cases zero : pointer disk (inodes n).addrs (slotOf (k / BSIZE)) = 0
      · rw [if_pos zero, if_pos zero]
      · rw [if_neg zero, if_neg zero, logWrite_of_ne]
        intro shared
        obtain ⟨isInum, isSlot⟩ := owned.unique inUse inUseN present shared
        have inside : k / BSIZE < MAXFILE := Nat.div_lt_of_lt_mul (by rwa [Nat.mul_comm])
        exact target ⟨isInum, slotOf_injective inside small isSlot⟩
  · intro c below
    refine logWrite_of_ne _ _ ?_
    have := owned.lower inUse present
    have := layout.bitmap_below _ (owned.upper inUse present)
    have : sb.bmapstart ≤ BBLOCK (pointer disk (inodes inum).addrs (slotOf bn)) sb :=
      Nat.le_add_left _ _
    omega
  · exact fun c smallC set => (marks c smallC).trans set

end Wrote

/-! ### The loop of `writei` -/

/-- A chunk of `writei`: `count` source bytes into the block at offset `off`. -/
theorem chunk_stored (src : CopyIn) {start tot off : Nat} (count : Nat) (block : Block)
    (position : off = start + tot) :
    ∀ i, i < BSIZE → write block (off % BSIZE) (src.bytes tot count) i =
      if off ≤ off / BSIZE * BSIZE + i ∧ off / BSIZE * BSIZE + i < off + count
      then src.byte (off / BSIZE * BSIZE + i - start) else block i := by
  intro i _
  have rest : off / BSIZE * BSIZE + off % BSIZE = off := Nat.div_add_mod' off BSIZE
  have length : (src.bytes tot count).length = count := read_length _ _ _
  by_cases inside : off % BSIZE ≤ i ∧ i - off % BSIZE < count
  · rw [if_pos (by omega), write_inside _ inside.1 (by omega)]
    have here := read_getElem? src.byte tot inside.2
    rw [List.getElem?_eq_getElem (by rw [read_length]; exact inside.2)] at here
    refine (Option.some.inj here).trans (congrArg src.byte ?_)
    omega
  · rw [if_neg (by omega), write_outside _ (by omega)]

/-- A chunk is stored in the block `bmap` returns. -/
theorem Walk.store {sb : Superblock} (layout : sb.WellFormed) {inodes : Nat → Dinode}
    {disk middle : Disk} {ip ip' : Inode} {start tot addr : Nat} (src : CopyIn) (count : Nat)
    (inUse : InUse sb (withInode inodes ip) ip.inum) (small : start + tot < MAXFILE * BSIZE)
    (walk : Walk sb inodes disk ip (slotOf ((start + tot) / BSIZE)) middle ip' addr)
    (nonzero : addr ≠ 0) (fits : (start + tot) % BSIZE + count ≤ BSIZE) :
    Wrote sb ip.inum (fun k => src.byte (k - start)) (start + tot) (start + tot + count)
      disk (withInode inodes ip)
      (logWrite middle addr (write (middle addr) ((start + tot) % BSIZE) (src.bytes tot count)))
      (withInode inodes ip') ∧
    pointer (logWrite middle addr (write (middle addr) ((start + tot) % BSIZE)
      (src.bytes tot count))) ip'.addrs (slotOf ((start + tot) / BSIZE)) ≠ 0 := by
  have inUse' : InUse sb (withInode inodes ip') ip.inum := (walk.grows.inUse_iff _).mpr inUse
  have tree : (withInode inodes ip' ip.inum).addrs = ip'.addrs := by
    rw [withInode_addrs walk.change]
  have inside : (start + tot) / BSIZE < MAXFILE := Nat.div_lt_of_lt_mul (by rwa [Nat.mul_comm])
  have held := walk.held
  subst held
  have stored := chunk_stored src count
    (middle (pointer middle ip'.addrs (slotOf ((start + tot) / BSIZE))))
    (rfl : start + tot = start + tot)
  rw [← tree] at nonzero stored ⊢
  have store := Owned.store (fun k => src.byte (k - start)) layout walk.grows.owned inUse'
    inside nonzero (Nat.le_add_right _ count) ⟨rfl, fun some => ?_⟩ stored
  · refine ⟨(walk.grows.wrote _ _).trans store le_rfl (Nat.le_add_right _ _), ?_⟩
    rw [store.kept _ _ inUse' nonzero]
    exact nonzero
  have rest : (start + tot) / BSIZE * BSIZE + (start + tot) % BSIZE = start + tot :=
    Nat.div_add_mod' _ _
  have last : start + tot + count - 1 =
      ((start + tot) % BSIZE + count - 1) + BSIZE * ((start + tot) / BSIZE) := by
    rw [Nat.mul_comm]
    omega
  rw [last, Nat.add_mul_div_left _ _ (by decide), Nat.div_eq_of_lt (by omega), Nat.zero_add]

/-- What the loop of `writei` did: `tot'` bytes are stored in whole chunks, and up to `hi` when the
copy of the next chunk failed part-way. -/
structure Looped (sb : Superblock) (src : CopyIn) (start n : Nat) (disk : Disk)
    (inodes : Nat → Dinode) (ip : Inode) (tot : Nat) (after : Disk) (ip' : Inode) (tot' hi : Nat) :
    Prop where
  wrote : Wrote sb ip.inum (fun k => src.byte (k - start)) (start + tot) hi
    disk (withInode inodes ip) after (withInode inodes ip')
  change : ip' = { ip with addrs := ip'.addrs }
  lower : tot ≤ tot'
  upper : tot' ≤ n
  mapped : ∀ k, start + tot ≤ k → k < start + tot' →
    pointer after ip'.addrs (slotOf (k / BSIZE)) ≠ 0
  reached : start + tot' ≤ hi
  stopped : tot' < n → (Full sb after ∧ hi = start + tot') ∨
    ∃ stored, src.fault tot' (min (n - tot') (BSIZE - (start + tot') % BSIZE)) = some stored ∧
      hi = start + tot' + min stored (min (n - tot') (BSIZE - (start + tot') % BSIZE))
  complete : tot' = n → hi = start + tot'

/-- The bytes of the chunk of `writei` at offset `tot`. -/
def chunk (start n tot : Nat) : Nat := min (n - tot) (BSIZE - (start + tot) % BSIZE)

/-- Where the loop of `writei` stopped: at the start of a chunk, of which no earlier one faults; and short
of the end only at a block that was not there, or at a fault. -/
structure Cut (src : CopyIn) (start n : Nat) (disk : Disk) (addrs : Fin (NDIRECT + 2) → Nat)
    (tot tot' hi : Nat) : Prop where
  place : tot' < n → tot' = tot ∨ (start + tot') % BSIZE = 0
  quiet : ∀ t, tot ≤ t → t < tot' → t = tot ∨ (start + t) % BSIZE = 0 →
    src.fault t (chunk start n t) = none
  cause : tot' < n → pointer disk addrs (slotOf ((start + tot') / BSIZE)) = 0 ∨
    ∃ stored, src.fault tot' (chunk start n tot') = some stored ∧
      hi = start + tot' + min stored (chunk start n tot')

/-- A chunk in front of the rest of the loop. -/
theorem Cut.before {src : CopyIn} {start n tot tot' hi : Nat} {disk middle : Disk}
    {addrs addrs' : Fin (NDIRECT + 2) → Nat}
    (cut : Cut src start n middle addrs' (tot + chunk start n tot) tot' hi)
    (fault : src.fault tot (chunk start n tot) = none)
    (kept : ∀ slot, pointer disk addrs slot ≠ 0 → pointer middle addrs' slot ≠ 0)
    (lower : tot + chunk start n tot ≤ tot') : Cut src start n disk addrs tot tot' hi where
  place less := by
    have room : chunk start n tot = BSIZE - (start + tot) % BSIZE ∨ n ≤ tot + chunk start n tot := by
      unfold chunk
      omega
    refine (cut.place less).elim (fun same => Or.inr ?_) Or.inr
    unfold BSIZE at *
    omega
  quiet t above below aligned := by
    by_cases first : t = tot
    · rw [first]
      exact fault
    · have later : tot + chunk start n tot ≤ t := by
        have whole := aligned.resolve_left first
        have short : chunk start n tot ≤ BSIZE - (start + tot) % BSIZE := Nat.min_le_right _ _
        unfold BSIZE at *
        omega
      exact cut.quiet t later below (Or.inr (aligned.resolve_left first))
  cause less := by
    refine (cut.cause less).imp_left fun zero => ?_
    by_contra present
    exact kept _ present zero

/-- The loop of `writei`, and where it stops. -/
theorem writeiLoop_cut {sb : Superblock} (layout : sb.WellFormed) (src : CopyIn) {start n : Nat}
    (room : start + n ≤ MAXFILE * BSIZE) {inodes : Nat → Dinode} :
    ∀ (fuel : Nat) (disk : Disk) (ip : Inode) (tot : Nat), n - tot ≤ fuel → tot ≤ n →
      Owned sb disk (withInode inodes ip) → InUse sb (withInode inodes ip) ip.inum →
      ∃ after ip' tot' hi,
        writeiLoop sb src n fuel disk ip (start + tot) tot = .ok (after, ip', start + tot', tot') ∧
        Looped sb src start n disk inodes ip tot after ip' tot' hi ∧
        Cut src start n disk ip.addrs tot tot' hi := by
  intro fuel
  induction fuel with
  | zero =>
    intro disk ip tot enough upper owned inUse
    have done : tot = n := by omega
    exact ⟨disk, ip, tot, start + tot, rfl, ⟨(Grows.refl _ (fun _ => True) owned).wrote _ _, rfl,
      le_rfl, upper, fun k lower less => by omega, le_rfl, fun less => by omega, fun _ => rfl⟩,
      ⟨fun _ => Or.inl rfl, fun t lower less _ => by omega, fun less => by omega⟩⟩
  | succ fuel ih =>
    intro disk ip tot enough upper owned inUse
    by_cases more : tot < n
    · have small : start + tot < MAXFILE * BSIZE := by omega
      have inside : (start + tot) / BSIZE < MAXFILE :=
        Nat.div_lt_of_lt_mul (by rwa [Nat.mul_comm])
      obtain ⟨middle, ip', addr, run, walk⟩ := bmap_spec layout owned inUse inside
      have number : ip'.inum = ip.inum := walk.number
      by_cases zero : addr = 0
      · subst zero
        have absent : pointer disk ip.addrs (slotOf ((start + tot) / BSIZE)) = 0 := by
          by_contra present
          obtain ⟨rfl, rfl⟩ := walk.present present
          exact present walk.held
        refine ⟨middle, ip', tot, start + tot, ?_, ⟨walk.grows.wrote _ _, walk.change, le_rfl, upper,
          fun k lower less => by omega, le_rfl, fun _ => Or.inl ⟨walk.full rfl, rfl⟩, fun _ => rfl⟩,
          ⟨fun _ => Or.inl rfl, fun t lower less _ => by omega, fun _ => Or.inl absent⟩⟩
        exact writeiLoopWith_stop more run
      · have positive : 0 < BSIZE - (start + tot) % BSIZE :=
          Nat.sub_pos_of_lt (Nat.mod_lt _ (by decide))
        have round : ∀ count, count ≤ BSIZE - (start + tot) % BSIZE → _ := fun count less =>
          walk.store layout src count inUse small zero (by omega)
        cases fault : src.fault tot (min (n - tot) (BSIZE - (start + tot) % BSIZE)) with
        | some stored =>
          refine ⟨_, ip', tot, _, ?_, ⟨(round (min stored (min (n - tot)
            (BSIZE - (start + tot) % BSIZE))) (by omega)).1, walk.change, le_rfl, upper,
            fun k lower less => by omega, Nat.le_add_right _ _,
            fun _ => Or.inr ⟨stored, fault, rfl⟩, fun done => by omega⟩,
            ⟨fun _ => Or.inl rfl, fun t lower less _ => by omega,
              fun _ => Or.inr ⟨stored, fault, rfl⟩⟩⟩
          exact writeiLoopWith_fault more run zero rfl fault
        | none =>
          obtain ⟨first, held⟩ := round (min (n - tot) (BSIZE - (start + tot) % BSIZE)) (by omega)
          have shift : start + tot + min (n - tot) (BSIZE - (start + tot) % BSIZE) =
              start + (tot + min (n - tot) (BSIZE - (start + tot) % BSIZE)) := by omega
          obtain ⟨after, ip'', tot', hi, rest, looped, cut⟩ := ih _ ip'
            (tot + min (n - tot) (BSIZE - (start + tot) % BSIZE)) (by omega) (by omega) first.owned
            (by rw [number]; exact (first.inUse_iff _).mpr inUse)
          rw [shift] at first
          have second := looped.wrote
          rw [number] at second
          refine ⟨after, ip'', tot', hi, ?_, ⟨first.trans second (by omega) ?_, ?_, ?_,
            looped.upper, ?_, looped.reached, looped.stopped, looped.complete⟩, ?_⟩
          · refine (writeiLoopWith_chunk more run zero rfl fault).trans ?_
            rw [shift]
            exact rest
          · have := looped.lower
            have := looped.reached
            omega
          · rw [looped.change, walk.change]
          · have := looped.lower
            omega
          · intro k lower less
            by_cases later : start + (tot + min (n - tot) (BSIZE - (start + tot) % BSIZE)) ≤ k
            · exact looped.mapped k later less
            · have sameBlock : k / BSIZE = (start + tot) / BSIZE := by
                unfold BSIZE at *
                omega
              have inUse' : InUse sb (withInode inodes ip') ip.inum := (first.inUse_iff _).mpr inUse
              have kept := second.kept ip.inum (slotOf (k / BSIZE)) inUse'
              rw [withInode_addrs walk.change, ← number, withInode_addrs looped.change,
                sameBlock] at kept
              rw [sameBlock, kept held]
              exact held
          · refine cut.before fault (fun slot nonzero => ?_) looped.lower
            have kept := first.kept ip.inum slot inUse
            rw [withInode_addrs walk.change, withInode_self] at kept
            rw [kept nonzero]
            exact nonzero
    · have done : tot = n := by omega
      refine ⟨disk, ip, tot, start + tot, ?_, ⟨(Grows.refl _ (fun _ => True) owned).wrote _ _, rfl,
        le_rfl, upper, fun k lower less => by omega, le_rfl, fun less => by omega, fun _ => rfl⟩,
        ⟨fun _ => Or.inl rfl, fun t lower less _ => by omega, fun less => by omega⟩⟩
      exact writeiLoopWith_done _ more

/-- The loop of `writei`. -/
theorem writeiLoop_spec {sb : Superblock} (layout : sb.WellFormed) (src : CopyIn) {start n : Nat}
    (room : start + n ≤ MAXFILE * BSIZE) {inodes : Nat → Dinode} (fuel : Nat) (disk : Disk) (ip : Inode)
    (tot : Nat) (enough : n - tot ≤ fuel) (upper : tot ≤ n) (owned : Owned sb disk (withInode inodes ip))
    (inUse : InUse sb (withInode inodes ip) ip.inum) : ∃ after ip' tot' hi,
      writeiLoop sb src n fuel disk ip (start + tot) tot = .ok (after, ip', start + tot', tot') ∧
      Looped sb src start n disk inodes ip tot after ip' tot' hi := by
  obtain ⟨after, ip', tot', hi, run, looped, -⟩ :=
    writeiLoop_cut layout src room fuel disk ip tot enough upper owned inUse
  exact ⟨after, ip', tot', hi, run, looped⟩

/-! ### The loop of `readi` -/

/-- `count` bytes of a file from offset `off` on. -/
def fileBytes (disk : Disk) (addrs : Fin (NDIRECT + 2) → Nat) (off count : Nat) : List UInt8 :=
  (List.range count).map fun i => fileByte disk addrs (off + i)

theorem fileBytes_append (disk : Disk) (addrs : Fin (NDIRECT + 2) → Nat) (off m count : Nat) :
    fileBytes disk addrs off m ++ fileBytes disk addrs (off + m) count =
      fileBytes disk addrs off (m + count) := by
  simp only [fileBytes, List.range_add, List.map_append, List.map_map]
  congr 1
  refine List.map_congr_left fun i _ => ?_
  exact congrArg _ (Nat.add_assoc _ _ _)

/-- The bytes of one block. -/
theorem read_block {disk : Disk} {addrs : Fin (NDIRECT + 2) → Nat} {off m : Nat}
    (present : pointer disk addrs (slotOf (off / BSIZE)) ≠ 0) (within : off % BSIZE + m ≤ BSIZE) :
    read (disk (pointer disk addrs (slotOf (off / BSIZE)))) (off % BSIZE) m =
      fileBytes disk addrs off m := by
  refine List.map_congr_left fun i member => ?_
  have inside : i < m := List.mem_range.mp member
  have position : (off + i) / BSIZE = off / BSIZE ∧ (off + i) % BSIZE = off % BSIZE + i := by
    unfold BSIZE at *
    omega
  rw [fileByte, position.1, position.2]
  exact (if_neg present).symm

theorem bmap_out_of_range (sb : Superblock) (disk : Disk) (ip : Inode) {bn : Nat}
    (large : MAXFILE ≤ bn) : bmap sb disk ip bn = .error .bmapOutOfRange :=
  bmapWith_out_of_range _ _ disk ip large

/-- The loop of `readi` over mapped blocks changes nothing and copies the file's bytes out, unless
a copy fails or the range leaves the blocks that `bmap` knows. -/
theorem readiLoop_spec {sb : Superblock} (layout : sb.WellFormed) {inodes : Nat → Dinode}
    {disk : Disk} {ip : Inode} (owned : Owned sb disk (withInode inodes ip))
    (inUse : InUse sb (withInode inodes ip) ip.inum) (dst : CopyOut) (n : Nat) :
    ∀ (fuel off tot : Nat) (copied : List UInt8), n - tot ≤ fuel → tot ≤ n →
      (∀ k, off ≤ k → k < off + (n - tot) → k / BSIZE < MAXFILE →
        pointer disk ip.addrs (slotOf (k / BSIZE)) ≠ 0) →
      (readiLoop sb dst n fuel disk ip off tot copied = .error .bmapOutOfRange ∧
        MAXFILE * BSIZE < off + (n - tot)) ∨
      ∃ r count, readiLoop sb dst n fuel disk ip off tot copied =
          .ok (disk, ip, r, copied ++ fileBytes disk ip.addrs off count) ∧
        (r = n ∧ count = n - tot ∨ r = -1 ∧ count < n - tot ∧ ∃ t m, dst t m = true) := by
  intro fuel
  induction fuel with
  | zero =>
    intro off tot copied enough upper _
    obtain rfl : tot = n := by omega
    refine Or.inr ⟨tot, 0, ?_, Or.inl ⟨rfl, by omega⟩⟩
    rw [fileBytes, List.range_zero, List.map_nil, List.append_nil]
    rfl
  | succ fuel ih =>
    intro off tot copied enough upper mapped
    by_cases more : tot < n
    · by_cases inside : off / BSIZE < MAXFILE
      · obtain ⟨after, ip', addr, run, walk⟩ := bmap_spec layout owned inUse inside
        have present := mapped off le_rfl (by omega) inside
        obtain ⟨rfl, rfl⟩ := walk.present present
        have held := walk.held
        subst held
        obtain ⟨m, amount⟩ : ∃ m, m = min (n - tot) (BSIZE - off % BSIZE) := ⟨_, rfl⟩
        have positive : 0 < BSIZE - off % BSIZE := Nat.sub_pos_of_lt (Nat.mod_lt _ (by decide))
        by_cases fails : dst tot m = true
        · refine Or.inr ⟨-1, 0, ?_, Or.inr ⟨rfl, by omega, tot, m, fails⟩⟩
          rw [fileBytes, List.range_zero, List.map_nil, List.append_nil]
          exact readiLoopWith_fault more run present amount.symm fails
        · have step : readiLoop sb dst n (fuel + 1) after ip' off tot copied =
              readiLoop sb dst n fuel after ip' (off + m) (tot + m)
                (copied ++ fileBytes after ip'.addrs off m) := by
            refine (readiLoopWith_chunk more run present amount.symm fails).trans ?_
            rw [read_block present (by omega)]
            rfl
          have rest := ih (off + m) (tot + m) (copied ++ fileBytes after ip'.addrs off m)
            (by omega) (by omega) fun k lower less => mapped k (by omega) (by omega)
          rw [step]
          rcases rest with ⟨error, large⟩ | ⟨r, count, rest, outcome⟩
          · exact Or.inl ⟨error, by omega⟩
          · refine Or.inr ⟨r, m + count, ?_, ?_⟩
            · rw [rest, List.append_assoc, fileBytes_append]
            · rcases outcome with ⟨done, all⟩ | ⟨failed, some, fault⟩
              · exact Or.inl ⟨done, by omega⟩
              · exact Or.inr ⟨failed, by omega, fault⟩
      · refine Or.inl ⟨?_, ?_⟩
        · exact readiLoopWith_error more (bmap_out_of_range sb disk ip (not_lt.mp inside))
        · have large : MAXFILE * BSIZE ≤ off :=
            (Nat.mul_le_mul_right _ (not_lt.mp inside)).trans (Nat.div_mul_le_self _ _)
          omega
    · obtain rfl : tot = n := by omega
      refine Or.inr ⟨tot, 0, ?_, Or.inl ⟨rfl, by omega⟩⟩
      rw [fileBytes, List.range_zero, List.map_nil, List.append_nil]
      exact readiLoopWith_done _ more

end Csc3150.FileSystem
