import Nftp.Hash
import Nftp.Lib.Crc
/-!
# Checksum — `hash.c` computes CRC-32C

The tables, the byte loops and the eight-byte loop, carried to a CRC register of 64 bits with the polynomial in its lower
half: there the loops agree for every register, whatever is left in the upper half.  `crc32c_eq` is the whole checksum,
wherever the buffer lies.
-/
namespace Nftp

open Lib

/-- Plain CRC-32C, one bit at a time. -/
def crcBitwise (data : Bytes) : UInt32 :=
  .ofBitVec (crc 0x82f63b78#32 0xffffffff#32 0xffffffff#32 (data.map UInt8.toBitVec))

/-- `POLY` in a register of 64 bits. -/
def poly64 : BitVec 64 := poly.toBitVec.setWidth 64

/-! ## The tables -/

theorem crcBit_toBitVec (c : UInt32) : (crcBit c).toBitVec = shift poly.toBitVec c.toBitVec := by
  have hone : (c &&& 1).toBitVec = BitVec.setWidth 32 (BitVec.ofBool (c.toBitVec.getLsbD 0)) := by
    rw [UInt32.toBitVec_and]
    exact BitVec.and_one_eq_setWidth_ofBool_getLsbD
  have hbit : c &&& 1 ≠ 0 ↔ c.toBitVec.getLsbD 0 = true := by
    rw [ne_eq, ← UInt32.toBitVec_inj, hone]
    cases c.toBitVec.getLsbD 0 <;> decide
  unfold crcBit shift
  by_cases h0 : c.toBitVec.getLsbD 0 = true
  · rw [if_pos (hbit.2 h0), if_pos h0]
    rfl
  · rw [if_neg (fun h' => h0 (hbit.1 h')), if_neg h0]
    rfl

theorem crc32cTable_zero (n : UInt32) : (crc32cTable 0 n).toBitVec = shifts poly.toBitVec 8 n.toBitVec := by
  simp only [crc32cTable, crcBit_toBitVec]
  rfl

/-- **The tables** hold what so many shifts make of an index. -/
theorem crc32cTable_toBitVec : ∀ (k : ℕ) (n : UInt32),
    (crc32cTable k n).toBitVec = shifts poly.toBitVec (8 * (k + 1)) n.toBitVec
  | 0, n => crc32cTable_zero n
  | k + 1, n => by
    have hk := crc32cTable_toBitVec k n
    rw [crc32cTable, UInt32.toBitVec_xor, crc32cTable_zero, UInt32.toBitVec_and, Nat.mul_succ, Nat.add_comm, shifts_add,
      ← hk, shifts_eight (crc32cTable k n).toBitVec]
    rfl

theorem tableAt_toBitVec (k : ℕ) (i : UInt64) :
    (tableAt k i).toBitVec = shifts poly64 (8 * (k + 1)) (lowByte i.toBitVec) := by
  have hlow : (((lowByte i.toBitVec).setWidth 32).setWidth 64 : BitVec 64) = lowByte i.toBitVec := by
    apply BitVec.eq_of_getLsbD_eq
    intro j hj
    rw [BitVec.getLsbD_setWidth, BitVec.getLsbD_setWidth, getLsbD_lowByte]
    by_cases h8 : j < 8
    · simp [h8, hj, show j < 32 by omega]
    · simp [h8]
  rw [tableAt, UInt32.toBitVec_toUInt64, crc32cTable_toBitVec, shifts_setWidth (by decide), UInt64.toBitVec_toUInt32]
  exact congrArg (shifts poly64 _) hlow

/-! ## The loops -/

theorem crc32cByte_toBitVec (crc : UInt64) (b : UInt8) :
    (crc32cByte crc b).toBitVec = crcStep poly64 crc.toBitVec b.toBitVec := by
  have hbyte : (b.toBitVec.setWidth 64 : BitVec 64) >>> 8 = 0#64 := by
    apply BitVec.eq_of_getLsbD_eq
    intro i _
    rw [BitVec.getLsbD_ushiftRight, BitVec.getLsbD_setWidth, BitVec.getLsbD_of_ge _ (8 + i) (by omega)]
    simp
  rw [crc32cByte, UInt64.toBitVec_xor, tableAt_toBitVec, crcStep, shifts_eight (crc.toBitVec ^^^ _),
    BitVec.ushiftRight_xor_distrib, hbyte, BitVec.xor_zero]
  rfl

theorem foldl_crc32cByte : ∀ (buf : Bytes) (crc : UInt64),
    (buf.foldl crc32cByte crc).toBitVec = (buf.map UInt8.toBitVec).foldl (crcStep poly64) crc.toBitVec
  | [], _ => rfl
  | b :: buf, crc => by
    rw [List.foldl_cons, foldl_crc32cByte buf, crc32cByte_toBitVec, List.map_cons, List.foldl_cons]

/-- **Eight bytes at a time**: the word in the register is shifted out by the eight tables. -/
theorem crc32cWord_toBitVec (crc : UInt64) : (crc32cWord crc).toBitVec = shifts poly64 64 crc.toBitVec := by
  have hout : ∀ c : BitVec 64, c >>> 8 >>> 8 >>> 8 >>> 8 >>> 8 >>> 8 >>> 8 >>> 8 = 0#64 := by
    intro c
    simp only [← BitVec.shiftRight_add]
    exact BitVec.ushiftRight_eq_zero (Nat.le_refl 64)
  show _ = shifts poly64 (8 * 8) crc.toBitVec
  rw [← sliced_eq]
  simp only [sliced, hout, BitVec.xor_zero, crc32cWord, UInt64.toBitVec_xor, tableAt_toBitVec, BitVec.xor_assoc]
  simp only [← BitVec.shiftRight_add]
  rfl

theorem le64_toBitVec (b0 b1 b2 b3 b4 b5 b6 b7 : UInt8) : (le64 b0 b1 b2 b3 b4 b5 b6 b7).toBitVec =
    le 64 [b0.toBitVec, b1.toBitVec, b2.toBitVec, b3.toBitVec, b4.toBitVec, b5.toBitVec, b6.toBitVec, b7.toBitVec] := by
  simp only [le, BitVec.shiftLeft_or_distrib, ← BitVec.shiftLeft_add, BitVec.zero_shiftLeft, BitVec.or_zero,
    ← BitVec.or_assoc]
  rfl

theorem crc32cBody_toBitVec (crc : UInt64) (buf : Bytes) :
    (crc32cBody crc buf).toBitVec = (buf.map UInt8.toBitVec).foldl (crcStep poly64) crc.toBitVec := by
  fun_induction crc32cBody crc buf with
  | case1 crc b0 b1 b2 b3 b4 b5 b6 b7 buf ih =>
    have hword := foldl_crcStep (p := poly64) [b0.toBitVec, b1.toBitVec, b2.toBitVec, b3.toBitVec, b4.toBitVec,
      b5.toBitVec, b6.toBitVec, b7.toBitVec] crc.toBitVec (Nat.le_refl 64)
    rw [ih, crc32cWord_toBitVec, UInt64.toBitVec_xor, le64_toBitVec]
    exact congrArg (fun c => (buf.map UInt8.toBitVec).foldl (crcStep poly64) c) hword.symm
  | case2 crc buf _ => exact foldl_crc32cByte buf crc

/-- The first loop does as many steps as there are bytes to the boundary, and leaves the others. -/
theorem crc32cHead_toBitVec : ∀ (next : ℕ) (crc : UInt64) (buf : Bytes),
    ((crc32cHead next crc buf).2.map UInt8.toBitVec).foldl (crcStep poly64) (crc32cHead next crc buf).1.toBitVec =
      (buf.map UInt8.toBitVec).foldl (crcStep poly64) crc.toBitVec
  | _, _, [] => rfl
  | next, crc, b :: buf => by
    unfold crc32cHead
    by_cases ha : next % 8 ≠ 0
    · rw [if_pos ha, crc32cHead_toBitVec (next + 1), crc32cByte_toBitVec, List.map_cons, List.foldl_cons]
    · rw [if_neg ha]

theorem crc32cSw_toBitVec (crci : UInt32) (next : ℕ) (buf : Bytes) : (crc32cSw crci next buf).toBitVec =
    crc poly.toBitVec (crci.toBitVec ^^^ 0xffffffff#32) 0xffffffff#32 (buf.map UInt8.toBitVec) := by
  have hloops : (crc32cBody (crc32cHead next (crci ^^^ 0xffffffff).toUInt64 buf).1
      (crc32cHead next (crci ^^^ 0xffffffff).toUInt64 buf).2).toBitVec =
        ((buf.map UInt8.toBitVec).foldl (crcStep poly.toBitVec) (crci.toBitVec ^^^ 0xffffffff#32)).setWidth 64 := by
    rw [crc32cBody_toBitVec, crc32cHead_toBitVec, foldl_setWidth (by decide) (by decide)]
    rfl
  rw [crc32cSw, crc]
  show (BitVec.setWidth 32 (crc32cBody _ _).toBitVec) ^^^ _ = _
  rw [hloops, BitVec.setWidth_setWidth_of_le _ (by decide), BitVec.setWidth_eq]
  rfl

/-- **The fast checksum is plain CRC-32C**, wherever the buffer lies. -/
theorem crc32c_eq (next : ℕ) (data : Bytes) : crc32c next data = crcBitwise data ∧ crc32c next data = nftpHash data := by
  have heq : ∀ next, crc32c next data = crcBitwise data := by
    intro next
    rw [← UInt32.toBitVec_inj, crc32c, crc32cSw_toBitVec]
    rfl
  exact ⟨heq next, (heq next).trans (heq 0).symm⟩

-- the check value of CRC-32C again, now of the plain one
example : crcBitwise [0x31, 0x32, 0x33, 0x34, 0x35, 0x36, 0x37, 0x38, 0x39] = 0xe3069283 := by decide +kernel

end Nftp
