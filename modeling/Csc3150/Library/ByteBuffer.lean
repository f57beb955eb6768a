/-
**Byte buffers: little-endian fields, bits and byte runs.**

A buffer is a byte at every index. Three ways of reading one are developed, each with the write
that goes with it and the law that relates the two:

* `getLE` / `putLE` — `count` bytes as a number, least significant byte first
  (`getLE_putLE`, `getLE_putLE_of_disjoint`);
* `bit` / `setBit` / `clearBit` — bit `k` is bit `k % 8` of byte `k / 8`
  (`bit_setBit`, `bit_clearBit`);
* `read` / `write` — a run of bytes (`write_inside`, `write_outside`).

A file is a byte list; `overwrite` replaces a run of it, extending it at the end.
-/

import Mathlib.Logic.Function.Basic
import Mathlib.Tactic.IntervalCases

namespace ByteBuffer

/-- A byte at every index. -/
abbrev Buffer := Nat → UInt8

/-! ### Little-endian fields -/

/-- The number in the `count` bytes from `start` on, least significant first. -/
def getLE (buffer : Buffer) (start : Nat) : Nat → Nat
  | 0 => 0
  | count + 1 => (buffer start).toNat + 256 * getLE buffer (start + 1) count

/-- Store `value` in the `count` bytes from `start` on. -/
def putLE (buffer : Buffer) (start count value : Nat) : Buffer := fun index =>
  if start ≤ index ∧ index < start + count then UInt8.ofNat (value / 256 ^ (index - start))
  else buffer index

theorem getLE_congr {buffer other : Buffer} {start count : Nat}
    (same : ∀ index, start ≤ index → index < start + count → other index = buffer index) :
    getLE other start count = getLE buffer start count := by
  induction count generalizing start with
  | zero => rfl
  | succ count ih =>
    have head : other start = buffer start := same start le_rfl (by omega)
    have tail : getLE other (start + 1) count = getLE buffer (start + 1) count :=
      ih fun index lower upper => same index (by omega) (by omega)
    rw [getLE, getLE, head, tail]

theorem getLE_lt (buffer : Buffer) (start count : Nat) : getLE buffer start count < 256 ^ count := by
  induction count generalizing start with
  | zero => exact Nat.one_pos
  | succ count ih =>
    have head : (buffer start).toNat < 256 := (buffer start).toNat_lt
    have tail := ih (start + 1)
    rw [getLE, pow_succ]
    omega

/-- The bytes of a buffer that stores `value` from `start` on read back as `value`. -/
theorem getLE_of_bytes {buffer : Buffer} {start count value : Nat}
    (stored : ∀ index, start ≤ index → index < start + count →
      buffer index = UInt8.ofNat (value / 256 ^ (index - start))) :
    getLE buffer start count = value % 256 ^ count := by
  induction count generalizing start value with
  | zero => rw [getLE, pow_zero, Nat.mod_one]
  | succ count ih =>
    have head : (buffer start).toNat = value % 256 := by
      rw [stored start le_rfl (by omega), Nat.sub_self, pow_zero, Nat.div_one]
      exact UInt8.toNat_ofNat
    have tail : getLE buffer (start + 1) count = value / 256 % 256 ^ count := by
      refine ih fun index lower upper => ?_
      rw [stored index (by omega) (by omega), Nat.div_div_eq_div_mul, ← pow_succ']
      congr 3
      omega
    rw [getLE, head, tail, pow_succ', Nat.mod_mul]

/-- A stored field reads back, cut to its width. -/
theorem getLE_putLE (buffer : Buffer) (start count value : Nat) :
    getLE (putLE buffer start count value) start count = value % 256 ^ count :=
  getLE_of_bytes fun _ lower upper => if_pos ⟨lower, upper⟩

theorem putLE_outside {buffer : Buffer} {start count value index : Nat}
    (outside : index < start ∨ start + count ≤ index) :
    putLE buffer start count value index = buffer index :=
  if_neg (by omega)

/-- A field that shares no byte with the stored one keeps its value. -/
theorem getLE_putLE_of_disjoint (buffer : Buffer) {start count value other width : Nat}
    (disjoint : other + width ≤ start ∨ start + count ≤ other) :
    getLE (putLE buffer start count value) other width = getLE buffer other width :=
  getLE_congr fun _ _ _ => putLE_outside (by omega)

/-! ### Bits -/

/-- The byte with bit `k` set and no other. -/
def mask (k : Nat) : UInt8 := 1 <<< UInt8.ofNat k

/-- Bit `k`: bit `k % 8` of byte `k / 8`. -/
def bit (buffer : Buffer) (k : Nat) : Bool := (buffer (k / 8) &&& mask (k % 8)) != 0

/-- Set bit `k`. -/
def setBit (buffer : Buffer) (k : Nat) : Buffer :=
  Function.update buffer (k / 8) (buffer (k / 8) ||| mask (k % 8))

/-- Clear bit `k`. -/
def clearBit (buffer : Buffer) (k : Nat) : Buffer :=
  Function.update buffer (k / 8) (buffer (k / 8) &&& ~~~ mask (k % 8))

theorem mask_toBitVec {k : Nat} (small : k < 8) : (mask k).toBitVec = BitVec.twoPow 8 k := by
  interval_cases k <;> rfl

theorem and_mask_bne_zero (byte : UInt8) {k : Nat} (small : k < 8) :
    ((byte &&& mask k) != 0) = byte.toBitVec.getLsbD k := by
  have value : (byte &&& mask k).toBitVec =
      if byte.toBitVec.getLsbD k then BitVec.twoPow 8 k else 0#8 := by
    rw [UInt8.toBitVec_and, mask_toBitVec small, BitVec.and_twoPow]
  have nonzero : BitVec.twoPow 8 k ≠ 0#8 := by
    interval_cases k <;> decide
  by_cases set : byte.toBitVec.getLsbD k = true
  · rw [if_pos set] at value
    rw [set, bne_iff_ne]
    exact fun zero => nonzero (value.symm.trans (congrArg UInt8.toBitVec zero))
  · rw [if_neg set] at value
    rw [Bool.eq_false_of_not_eq_true set, bne_eq_false_iff_eq]
    exact UInt8.toBitVec_inj.mp value

theorem bit_eq (buffer : Buffer) (k : Nat) :
    bit buffer k = (buffer (k / 8)).toBitVec.getLsbD (k % 8) :=
  and_mask_bne_zero _ (Nat.mod_lt _ (by decide))

/-- Setting bit `k` sets bit `k` and changes no other. -/
theorem bit_setBit (buffer : Buffer) (k j : Nat) :
    bit (setBit buffer k) j = (decide (j = k) || bit buffer j) := by
  rw [bit_eq, bit_eq, setBit]
  by_cases sameByte : j / 8 = k / 8
  · have sameBit : k % 8 = j % 8 ↔ j = k := by omega
    have small : k % 8 < 8 := Nat.mod_lt _ (by decide)
    rw [sameByte, Function.update_self, UInt8.toBitVec_or, BitVec.getLsbD_or,
      mask_toBitVec small, BitVec.getLsbD_twoPow, decide_eq_true small, Bool.true_and,
      Bool.or_comm]
    simp only [sameBit]
  · have different : j ≠ k := fun equal => sameByte (by rw [equal])
    rw [Function.update_of_ne sameByte, decide_eq_false different, Bool.false_or]

/-- Clearing bit `k` clears bit `k` and changes no other. -/
theorem bit_clearBit (buffer : Buffer) (k j : Nat) :
    bit (clearBit buffer k) j = (!decide (j = k) && bit buffer j) := by
  rw [bit_eq, bit_eq, clearBit]
  by_cases sameByte : j / 8 = k / 8
  · have sameBit : k % 8 = j % 8 ↔ j = k := by omega
    have small : k % 8 < 8 := Nat.mod_lt _ (by decide)
    have smallJ : j % 8 < 8 := Nat.mod_lt _ (by decide)
    rw [sameByte, Function.update_self, UInt8.toBitVec_and, UInt8.toBitVec_not, BitVec.getLsbD_and,
      BitVec.getLsbD_not, mask_toBitVec small, BitVec.getLsbD_twoPow, decide_eq_true small,
      decide_eq_true smallJ, Bool.true_and, Bool.true_and, Bool.and_comm]
    simp only [sameBit]
  · have different : j ≠ k := fun equal => sameByte (by rw [equal])
    rw [Function.update_of_ne sameByte, decide_eq_false different, Bool.not_false, Bool.true_and]

/-! ### Runs of bytes -/

/-- The `count` bytes from `start` on. -/
def read (buffer : Buffer) (start count : Nat) : List UInt8 :=
  (List.range count).map fun index => buffer (start + index)

/-- Store a run of bytes from `start` on. -/
def write (buffer : Buffer) (start : Nat) (bytes : List UInt8) : Buffer := fun index =>
  if start ≤ index then bytes[index - start]?.getD (buffer index) else buffer index

@[simp] theorem read_length (buffer : Buffer) (start count : Nat) :
    (read buffer start count).length = count := by
  rw [read, List.length_map, List.length_range]

theorem read_getElem? (buffer : Buffer) (start : Nat) {count index : Nat} (inside : index < count) :
    (read buffer start count)[index]? = some (buffer (start + index)) := by
  simp [read, inside]

theorem write_inside (buffer : Buffer) {start index : Nat} {bytes : List UInt8}
    (lower : start ≤ index) (upper : index - start < bytes.length) :
    write buffer start bytes index = bytes[index - start] := by
  rw [write, if_pos lower, List.getElem?_eq_getElem upper, Option.getD_some]

theorem write_outside (buffer : Buffer) {start index : Nat} {bytes : List UInt8}
    (outside : index < start ∨ start + bytes.length ≤ index) :
    write buffer start bytes index = buffer index := by
  by_cases lower : start ≤ index
  · have absent : bytes[index - start]? = none := List.getElem?_eq_none (by omega)
    rw [write, if_pos lower, absent, Option.getD_none]
  · rw [write, if_neg lower]

/-! ### Byte lists -/

/-- The list with the bytes from `off` on replaced by `bytes`, extended when they reach past it. -/
def overwrite (list : List UInt8) (off : Nat) (bytes : List UInt8) : List UInt8 :=
  list.take off ++ bytes ++ list.drop (off + bytes.length)

theorem overwrite_length {list : List UInt8} {off : Nat} {bytes : List UInt8}
    (start : off ≤ list.length) :
    (overwrite list off bytes).length = max list.length (off + bytes.length) := by
  simp only [overwrite, List.length_append, List.length_take, List.length_drop]
  omega

theorem overwrite_getElem? {list : List UInt8} {off : Nat} {bytes : List UInt8}
    (start : off ≤ list.length) (k : Nat) :
    (overwrite list off bytes)[k]? =
      if off ≤ k ∧ k < off + bytes.length then bytes[k - off]? else list[k]? := by
  have front : (list.take off).length = off := by
    rw [List.length_take]
    omega
  rw [overwrite, List.append_assoc]
  by_cases before : k < off
  · rw [if_neg (by omega), List.getElem?_append_left (by omega), List.getElem?_take_of_lt before]
  · rw [List.getElem?_append_right (by omega), front]
    by_cases inside : k < off + bytes.length
    · rw [if_pos (by omega), List.getElem?_append_left (by omega)]
    · rw [if_neg (by omega), List.getElem?_append_right (by omega), List.getElem?_drop]
      congr 1
      omega

end ByteBuffer
