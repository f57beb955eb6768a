/-
**What a write that was cut short leaves in the file.**

`writei` copies a chunk straight into the cached block. When the copy fails the block is released without
being logged, but the bytes stored so far stay in the buffer, where the next `readi` finds them.

* `byteAt_eq` — the byte that `readi` delivers at an offset;
* `Written.old_bytes_iff` — bytes outside the reported run change exactly when the chunk that failed had
  stored bytes that differ from those of the file;
* `short_write_exact_iff` — when a write changes only the bytes it reports.
-/

import Csc3150.FileSystem.InodeCalls

namespace Csc3150.FileSystem

open ByteBuffer Outcome

/-! ### Reading one byte -/

/-- The byte that `readi` delivers at offset `k` to a kernel destination. -/
def byteAt (sb : Superblock) (disk : Disk) (ip : Inode) (k : UInt32) : Option UInt8 :=
  (readi sb disk ip (fun _ _ => false) k 1).toOption.bind fun result => result.2.2.2.head?

theorem toNat_one : (1 : UInt32).toNat = 1 := rfl

/-- `readi` delivers the bytes of the file below its size, up to the last block that `bmap` knows. -/
theorem byteAt_eq {sb : Superblock} {disk : Disk} {ip : Inode} (image : Image sb disk)
    (cached : Cached sb disk ip) (k : UInt32) : byteAt sb disk ip k =
      if k.toNat < ip.size ∧ k.toNat < MAXFILE * BSIZE then some (fileByte disk ip.addrs k.toNat)
      else none := by
  have total : MAXFILE * BSIZE < 2 ^ 32 - 1 := by decide
  have sizeLt : ip.size < 2 ^ 32 := by
    rw [cached.same]
    exact (dinode_fits sb disk ip.inum).size_lt
  by_cases beyond : ip.size < k.toNat ∨ k + 1 < k
  · have wraps := beyond
    rw [add_lt_left_iff, toNat_one] at wraps
    rw [byteAt, readi_beyond beyond, if_neg (by omega)]
    rfl
  · have inRange := beyond
    rw [add_lt_left_iff, toNat_one] at inRange
    have next : (k + 1).toNat = k.toNat + 1 := by
      rw [UInt32.toNat_add, toNat_one]
      exact Nat.mod_eq_of_lt (by omega)
    by_cases atEnd : ip.size < k.toNat + 1
    · have none_left : ip.size - k.toNat = 0 := by omega
      rw [byteAt, readi_inside beyond (if_pos (next ▸ atEnd)), none_left, if_neg (by omega)]
      rfl
    · have inFile : k.toNat < ip.size := by omega
      rw [byteAt, readi_inside beyond (if_neg (next ▸ atEnd)), toNat_one]
      by_cases inside : k.toNat < MAXFILE * BSIZE
      · have small : k.toNat / BSIZE < MAXFILE := Nat.div_lt_of_lt_mul (by rwa [Nat.mul_comm])
        have present := image.filled ip.inum cached.inUse _ small
        rw [← cached.same] at present
        have owned : Owned sb disk (withInode (dinode sb disk) ip) := by
          rw [cached.withInode]
          exact image.owned
        have inUse : InUse sb (withInode (dinode sb disk) ip) ip.inum := by
          rw [cached.withInode]
          exact cached.inUse
        have mapped : ∀ i, k.toNat ≤ i → i < k.toNat + (1 - 0) → i / BSIZE < MAXFILE →
            pointer disk ip.addrs (slotOf (i / BSIZE)) ≠ 0 := by
          intro i lower upper _
          obtain rfl : i = k.toNat := by omega
          exact present (lt_of_le_of_lt (Nat.div_mul_le_self _ _) inFile)
        rcases readiLoop_spec image.layout owned inUse (fun _ _ => false) 1 1 k.toNat 0 []
            le_rfl (Nat.zero_le _) mapped with ⟨-, large⟩ | ⟨r, count, run, outcome⟩
        · omega
        · rcases outcome with ⟨-, rfl⟩ | ⟨-, -, t, m, fault⟩
          · rw [run, if_pos ⟨inFile, inside⟩]
            rfl
          · exact absurd fault Bool.false_ne_true
      · have large : MAXFILE ≤ k.toNat / BSIZE :=
          (Nat.le_div_iff_mul_le (by decide)).mpr (not_lt.mp inside)
        rw [readiLoop, readiLoopWith_error Nat.one_pos (bmap_out_of_range sb disk ip large),
          if_neg fun both => inside both.2]
        rfl

/-! ### The chunk that fails -/

/-- `either_copyin` fails first in the chunk at offset `t`, after storing `stored` bytes of it. -/
structure FirstFault (src : CopyIn) (off n t stored : Nat) : Prop where
  starts : t = 0 ∨ (off + t) % BSIZE = 0
  inside : t < n
  fails : src.fault t (chunk off n t) = some stored
  earlier : ∀ t', t' < t → t' = 0 ∨ (off + t') % BSIZE = 0 → src.fault t' (chunk off n t') = none

/-- The bytes stored before the first failure repeat the file's own, as far as the file reaches. -/
def Repeats (src : CopyIn) (off n : Nat) (disk : Disk) (ip : Inode) : Prop :=
  ∀ t stored, FirstFault src off n t stored → ∀ j, j < min stored (chunk off n t) →
    off + t + j < ip.size → src.byte (t + j) = fileByte disk ip.addrs (off + t + j)

section Short

variable {sb : Superblock} {disk after : Disk} {ip ip' : Inode} {src : CopyIn} {off n tot hi : Nat}

/-- The first failure is where the loop stopped, when any byte after it lies in the file. -/
theorem Cut.at_fault (cut : Cut src off n disk ip.addrs 0 tot hi) (image : Image sb disk)
    (cached : Cached sb disk ip) (room : off + n ≤ MAXFILE * BSIZE) (upper : tot ≤ n)
    {t stored k : Nat} (first : FirstFault src off n t stored) (after : off + t ≤ k)
    (below : k < ip.size) : tot = t ∧ hi = off + t + min stored (chunk off n t) := by
  have inside := first.inside
  have reached : ¬ t < tot := by
    intro less
    have quiet := cut.quiet t (Nat.zero_le _) less first.starts
    rw [first.fails] at quiet
    cases quiet
  rcases cut.cause (by omega) with absent | ⟨stored', fails, isHi⟩
  · -- a missing block lies past the end of the file
    have small : (off + tot) / BSIZE < MAXFILE :=
      Nat.div_lt_of_lt_mul (by rw [Nat.mul_comm]; omega)
    have present := image.filled ip.inum cached.inUse _ small
    rw [← cached.same] at present
    have start := Nat.div_mul_le_self (off + tot) BSIZE
    exact absurd absent (present (by omega))
  · have same : tot = t := by
      by_contra different
      have quiet := first.earlier tot (by omega) (cut.place (by omega))
      rw [fails] at quiet
      cases quiet
    subst same
    have stores := Option.some.inj (fails.symm.trans first.fails)
    rw [isHi, stores]
    exact ⟨rfl, rfl⟩

/-- **Bytes outside the reported run** are those of before, exactly when the failed chunk repeats them. -/
theorem Written.old_bytes_iff (written : Written sb src ip off n disk after ip' tot hi)
    (cut : Cut src off n disk ip.addrs 0 tot hi) (image : Image sb disk) (cached : Cached sb disk ip)
    (room : off + n ≤ MAXFILE * BSIZE) :
    (∀ k, k < ip.size → k < MAXFILE * BSIZE → ¬ (off ≤ k ∧ k < off + tot) →
      fileByte after ip'.addrs k = fileByte disk ip.addrs k) ↔ Repeats src off n disk ip := by
  have upper := written.upper
  constructor
  · intro unchanged t stored first j less below
    obtain ⟨rfl, isHi⟩ := cut.at_fault image cached room upper first (Nat.le_add_right _ j) below
    have within : min stored (chunk off n tot) ≤ n - tot :=
      (Nat.min_le_right _ _).trans (Nat.min_le_left _ _)
    have inside : off + tot + j < MAXFILE * BSIZE := by omega
    have now := written.bytes _ inside
    rw [unchanged _ below inside (by omega), if_pos ⟨by omega, by omega⟩] at now
    rw [now]
    exact congrArg src.byte (by omega)
  · intro repeats k below inside outside
    rw [written.bytes k inside]
    split_ifs with stored
    · -- a byte of the chunk that failed
      have later : off + tot ≤ k := by omega
      have short : tot < n := by
        by_contra whole
        have := written.complete (by omega)
        omega
      have small : (off + tot) / BSIZE < MAXFILE :=
        Nat.div_lt_of_lt_mul (by rw [Nat.mul_comm]; omega)
      have present := image.filled ip.inum cached.inUse _ small
      rw [← cached.same] at present
      have start := Nat.div_mul_le_self (off + tot) BSIZE
      obtain ⟨amount, fails, isHi⟩ := (cut.cause short).resolve_left (present (by omega))
      have first : FirstFault src off n tot amount :=
        { starts := cut.place short
          inside := short
          fails := fails
          earlier := fun t less starts => cut.quiet t (Nat.zero_le _) less starts }
      obtain ⟨j, rfl⟩ := Nat.exists_eq_add_of_le later
      have same := repeats tot amount first j (by omega) below
      rw [← same]
      exact congrArg src.byte (by omega)
    · rfl

end Short

/-- **A write cut short.** Whatever `writei` returns, the size is the larger of the old size and the end of
the run it reports; the bytes outside that run are those of before, exactly when the bytes stored before
the first failed copy repeat those of the file. -/
theorem short_write_exact_iff {sb : Superblock} {disk : Disk} {ip : Inode} (image : Image sb disk)
    (cached : Cached sb disk ip) (src : CopyIn) {off n : UInt32} (accepts : ¬ Rejects ip.size off n) :
    ∃ after ip' tot, writei sb disk ip src off n = .ok (after, ip', ((tot : Nat) : Int)) ∧
      tot ≤ n.toNat ∧ ip'.size = max ip.size (off.toNat + tot) ∧
      ((∀ k b, byteAt sb after ip' k = some b → ¬ (off.toNat ≤ k.toNat ∧ k.toNat < off.toNat + tot) →
          byteAt sb disk ip k = some b) ↔
        Repeats src off.toNat n.toNat disk ip) := by
  have room : off.toNat + n.toNat ≤ MAXFILE * BSIZE := by
    unfold Rejects at accepts
    omega
  have start : off.toNat ≤ ip.size := by
    unfold Rejects at accepts
    omega
  obtain ⟨after, ip', tot, hi, run, written, cut⟩ := writei_cut image cached src accepts
  have size : ip'.size = max ip.size (off.toNat + tot) := by
    rw [written.change]
  refine ⟨after, ip', tot, run, written.upper, size, ?_⟩
  rw [← written.old_bytes_iff cut image cached room]
  constructor
  · intro unchanged k below inside outside
    have total : MAXFILE * BSIZE < 2 ^ 32 := by decide
    have number : (UInt32.ofNat k).toNat = k := UInt32.toNat_ofNat_of_lt' (by
      show k < 2 ^ 32
      omega)
    have here := unchanged (UInt32.ofNat k)
    rw [byteAt_eq written.image written.cached, byteAt_eq image cached, number, size,
      if_pos ⟨lt_of_lt_of_le below (le_max_left _ _), inside⟩, if_pos ⟨below, inside⟩] at here
    exact (Option.some.inj (here _ rfl outside)).symm
  · intro unchanged k b read outside
    rw [byteAt_eq written.image written.cached, size] at read
    split_ifs at read with here
    have below : k.toNat < ip.size := by omega
    rw [byteAt_eq image cached, if_pos ⟨below, here.2⟩, ← unchanged _ below here.2 outside]
    exact read

/-! ### A file of three bytes -/

/-- The in-memory copy of the file of the small image. -/
def smallInode : Inode :=
  { Dinode.zero with
    type := T_FILE, nlink := 1, dev := ROOTDEV, inum := 1, ref := 1, lock := true, valid := true }

theorem image_smallDisk : Image smallSuperblock (smallDisk 0) :=
  ⟨smallSuperblock_wellFormed, blocksExact_iff.mp (blocksExact_smallDisk (Nat.two_pow_pos 32)),
    noHoles_smallDisk⟩

theorem cached_smallInode : Cached smallSuperblock (smallDisk 0) smallInode where
  inUse := by
    refine ⟨Nat.one_pos, Nat.one_lt_two, ?_⟩
    show (dinode smallSuperblock (smallDisk 0) 1).type ≠ 0
    rw [dinode_smallDisk (Nat.two_pow_pos 32)]
    decide
  same := (dinode_smallDisk (Nat.two_pow_pos 32)).symm

theorem accepts_three : ¬ Rejects smallInode.size 0 3 := by
  show ¬ (0 < 0 ∨ 2 ^ 32 ≤ 0 + 3 ∨ MAXFILE * BSIZE < 0 + 3)
  decide

/-- A source whose copy fails after one byte. -/
def oneByte : CopyIn := ⟨fun _ => 1, fun _ _ => some 1⟩

/-- The byte that is stored over `[1, 8, 9]` is the one that was there, so the file stays as it is. -/
theorem short_write_exact_small : ∃ disk ip after ip' tot,
    fileBytes disk ip.addrs 0 3 = [1, 8, 9] ∧
      writei smallSuperblock disk ip oneByte 0 3 = .ok (after, ip', ((tot : Nat) : Int)) ∧ tot < 3 ∧
      ∀ k b, byteAt smallSuperblock after ip' k = some b →
        ¬ ((0 : UInt32).toNat ≤ k.toNat ∧ k.toNat < (0 : UInt32).toNat + tot) →
        byteAt smallSuperblock disk ip k = some b := by
  have computed : (writei smallSuperblock (smallDisk 0) smallInode (.kernel [1, 8, 9]) 0 3).toOption.any
      fun first => first.2.1.size == 3 && fileBytes first.1 first.2.1.addrs 0 3 == [1, 8, 9] &&
        (writei smallSuperblock first.1 first.2.1 oneByte 0 3).toOption.any
          fun second => second.2.2 == 0 := by
    decide +kernel
  obtain ⟨disk, ip, tot, hi, run, written, -⟩ :=
    writei_cut image_smallDisk cached_smallInode (.kernel [1, 8, 9]) accepts_three
  rw [run] at computed
  obtain ⟨both, ends⟩ := Bool.and_eq_true_iff.mp computed
  obtain ⟨size, bytes⟩ := Bool.and_eq_true_iff.mp both
  have accepts : ¬ Rejects ip.size 0 3 := by
    rw [eq_of_beq size]
    show ¬ (3 < 0 ∨ 2 ^ 32 ≤ 0 + 3 ∨ MAXFILE * BSIZE < 0 + 3)
    decide
  obtain ⟨after, ip', tot', again, -, -, exactly⟩ :=
    short_write_exact_iff written.image written.cached oneByte accepts
  have first : fileByte disk ip.addrs 0 = 1 := Option.some.inj (congrArg List.head? (eq_of_beq bytes))
  rw [again] at ends
  have none : tot' = 0 := Int.ofNat.inj (eq_of_beq ends)
  refine ⟨disk, ip, after, ip', tot', eq_of_beq bytes, again, by omega, exactly.mpr ?_⟩
  rintro t stored ⟨starts, inside, fails, -⟩ j less -
  obtain rfl : 1 = stored := Option.some.inj fails
  have three : (3 : UInt32).toNat = 3 := rfl
  obtain rfl : t = 0 := starts.elim id fun aligned => by
    rw [three] at inside
    rw [UInt32.toNat_zero, BSIZE] at aligned
    omega
  obtain rfl : j = 0 := by omega
  exact first.symm

/-- **A byte that was not reported changes.** A write of three bytes over `[7, 8, 9]` from a source of
which one byte can be read returns 0 and leaves `[1, 8, 9]`. -/
theorem short_write_leaks : ∃ disk ip after ip', Image smallSuperblock disk ∧
    Cached smallSuperblock disk ip ∧
    writei smallSuperblock disk ip oneByte 0 3 = .ok (after, ip', 0) ∧
    byteAt smallSuperblock disk ip 0 = some 7 ∧ byteAt smallSuperblock after ip' 0 = some 1 := by
  have computed : (writei smallSuperblock (smallDisk 0) smallInode (.kernel [7, 8, 9]) 0 3).toOption.any
      fun first => byteAt smallSuperblock first.1 first.2.1 0 = some 7 &&
        (writei smallSuperblock first.1 first.2.1 oneByte 0 3).toOption.any fun second =>
          second.2.2 = 0 && byteAt smallSuperblock second.1 second.2.1 0 = some 1 := by
    decide +kernel
  obtain ⟨disk, ip, tot, hi, run, written, -⟩ :=
    writei_cut image_smallDisk cached_smallInode (.kernel [7, 8, 9]) accepts_three
  rw [run] at computed
  have both := Bool.and_eq_true_iff.mp computed
  obtain ⟨⟨after, ip', r⟩, ran, facts⟩ := (Option.any_eq_true _ _).mp both.2
  have values := Bool.and_eq_true_iff.mp facts
  have returned : r = 0 := of_decide_eq_true values.1
  refine ⟨disk, ip, after, ip', written.image, written.cached, ?_, of_decide_eq_true both.1,
    of_decide_eq_true values.2⟩
  rw [← returned]
  cases outcome : writei smallSuperblock disk ip oneByte 0 3 with
  | ok result =>
    rw [outcome] at ran
    exact congrArg _ (Option.some.inj ran)
  | error halt =>
    rw [outcome] at ran
    cases ran

end Csc3150.FileSystem
