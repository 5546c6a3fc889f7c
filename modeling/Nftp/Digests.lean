import Nftp.Basic
import Nftp.Lib.Crc
import Nftp.Lib.Digest
/-!
# Digests — `hash.c`, the other digests

The CRC-32 of `nftp_crc32`, with its table of 256 words and its loop over eight bytes at a time; the CRC-8 of `nftp_crc`,
highest bit first; and the two multiplicative hashes.  The first two are carried to the CRC of the library, the second one
with its bits and those of the message reversed.
-/
namespace Nftp

open Lib

/-- `nftp_djb_hashn`. -/
def nftpDjbHashn (cp : Bytes) : UInt32 := cp.foldl (fun hash b => 33 * hash ^^^ b.toUInt32) 5381

/-- `nftp_fnv1a_hashn`. -/
def nftpFnv1aHashn (cp : Bytes) : UInt32 := cp.foldl (fun hash b => (hash ^^^ b.toUInt32) * 0x01000193) 0x811c9dc5

/-- The body of the inner loop of `nftp_crc`. -/
def crc8Bit (crc : UInt8) : UInt8 := if crc &&& 0x80 ≠ 0 then (crc <<< 1) ^^^ 0x31 else crc <<< 1

/-- One round of the outer loop: the byte is put in, and eight bits are shifted out. -/
def crc8Byte (crc b : UInt8) : UInt8 := crc8Bit^[8] (crc ^^^ b)

def nftpCrc (data : Bytes) : UInt8 := data.foldl crc8Byte 0xff

def crc32Table : List UInt32 :=
  [
    0x00000000, 0x77073096, 0xee0e612c, 0x990951ba, 0x076dc419, 0x706af48f, 0xe963a535, 0x9e6495a3,
    0x0edb8832, 0x79dcb8a4, 0xe0d5e91e, 0x97d2d988, 0x09b64c2b, 0x7eb17cbd, 0xe7b82d07, 0x90bf1d91,
    0x1db71064, 0x6ab020f2, 0xf3b97148, 0x84be41de, 0x1adad47d, 0x6ddde4eb, 0xf4d4b551, 0x83d385c7,
    0x136c9856, 0x646ba8c0, 0xfd62f97a, 0x8a65c9ec, 0x14015c4f, 0x63066cd9, 0xfa0f3d63, 0x8d080df5,
    0x3b6e20c8, 0x4c69105e, 0xd56041e4, 0xa2677172, 0x3c03e4d1, 0x4b04d447, 0xd20d85fd, 0xa50ab56b,
    0x35b5a8fa, 0x42b2986c, 0xdbbbc9d6, 0xacbcf940, 0x32d86ce3, 0x45df5c75, 0xdcd60dcf, 0xabd13d59,
    0x26d930ac, 0x51de003a, 0xc8d75180, 0xbfd06116, 0x21b4f4b5, 0x56b3c423, 0xcfba9599, 0xb8bda50f,
    0x2802b89e, 0x5f058808, 0xc60cd9b2, 0xb10be924, 0x2f6f7c87, 0x58684c11, 0xc1611dab, 0xb6662d3d,
    0x76dc4190, 0x01db7106, 0x98d220bc, 0xefd5102a, 0x71b18589, 0x06b6b51f, 0x9fbfe4a5, 0xe8b8d433,
    0x7807c9a2, 0x0f00f934, 0x9609a88e, 0xe10e9818, 0x7f6a0dbb, 0x086d3d2d, 0x91646c97, 0xe6635c01,
    0x6b6b51f4, 0x1c6c6162, 0x856530d8, 0xf262004e, 0x6c0695ed, 0x1b01a57b, 0x8208f4c1, 0xf50fc457,
    0x65b0d9c6, 0x12b7e950, 0x8bbeb8ea, 0xfcb9887c, 0x62dd1ddf, 0x15da2d49, 0x8cd37cf3, 0xfbd44c65,
    0x4db26158, 0x3ab551ce, 0xa3bc0074, 0xd4bb30e2, 0x4adfa541, 0x3dd895d7, 0xa4d1c46d, 0xd3d6f4fb,
    0x4369e96a, 0x346ed9fc, 0xad678846, 0xda60b8d0, 0x44042d73, 0x33031de5, 0xaa0a4c5f, 0xdd0d7cc9,
    0x5005713c, 0x270241aa, 0xbe0b1010, 0xc90c2086, 0x5768b525, 0x206f85b3, 0xb966d409, 0xce61e49f,
    0x5edef90e, 0x29d9c998, 0xb0d09822, 0xc7d7a8b4, 0x59b33d17, 0x2eb40d81, 0xb7bd5c3b, 0xc0ba6cad,
    0xedb88320, 0x9abfb3b6, 0x03b6e20c, 0x74b1d29a, 0xead54739, 0x9dd277af, 0x04db2615, 0x73dc1683,
    0xe3630b12, 0x94643b84, 0x0d6d6a3e, 0x7a6a5aa8, 0xe40ecf0b, 0x9309ff9d, 0x0a00ae27, 0x7d079eb1,
    0xf00f9344, 0x8708a3d2, 0x1e01f268, 0x6906c2fe, 0xf762575d, 0x806567cb, 0x196c3671, 0x6e6b06e7,
    0xfed41b76, 0x89d32be0, 0x10da7a5a, 0x67dd4acc, 0xf9b9df6f, 0x8ebeeff9, 0x17b7be43, 0x60b08ed5,
    0xd6d6a3e8, 0xa1d1937e, 0x38d8c2c4, 0x4fdff252, 0xd1bb67f1, 0xa6bc5767, 0x3fb506dd, 0x48b2364b,
    0xd80d2bda, 0xaf0a1b4c, 0x36034af6, 0x41047a60, 0xdf60efc3, 0xa867df55, 0x316e8eef, 0x4669be79,
    0xcb61b38c, 0xbc66831a, 0x256fd2a0, 0x5268e236, 0xcc0c7795, 0xbb0b4703, 0x220216b9, 0x5505262f,
    0xc5ba3bbe, 0xb2bd0b28, 0x2bb45a92, 0x5cb36a04, 0xc2d7ffa7, 0xb5d0cf31, 0x2cd99e8b, 0x5bdeae1d,
    0x9b64c2b0, 0xec63f226, 0x756aa39c, 0x026d930a, 0x9c0906a9, 0xeb0e363f, 0x72076785, 0x05005713,
    0x95bf4a82, 0xe2b87a14, 0x7bb12bae, 0x0cb61b38, 0x92d28e9b, 0xe5d5be0d, 0x7cdcefb7, 0x0bdbdf21,
    0x86d3d2d4, 0xf1d4e242, 0x68ddb3f8, 0x1fda836e, 0x81be16cd, 0xf6b9265b, 0x6fb077e1, 0x18b74777,
    0x88085ae6, 0xff0f6a70, 0x66063bca, 0x11010b5c, 0x8f659eff, 0xf862ae69, 0x616bffd3, 0x166ccf45,
    0xa00ae278, 0xd70dd2ee, 0x4e048354, 0x3903b3c2, 0xa7672661, 0xd06016f7, 0x4969474d, 0x3e6e77db,
    0xaed16a4a, 0xd9d65adc, 0x40df0b66, 0x37d83bf0, 0xa9bcae53, 0xdebb9ec5, 0x47b2cf7f, 0x30b5ffe9,
    0xbdbdf21c, 0xcabac28a, 0x53b39330, 0x24b4a3a6, 0xbad03605, 0xcdd70693, 0x54de5729, 0x23d967bf,
    0xb3667a2e, 0xc4614ab8, 0x5d681b02, 0x2a6f2b94, 0xb40bbe37, 0xc30c8ea1, 0x5a05df1b, 0x2d02ef8d]

/-- `crc = crc32_table[((int)crc ^ (*data++)) & 0xff] ^ (crc >> 8)`; the index is one of the table's. -/
def crc32Byte (crc : UInt32) (b : UInt8) : UInt32 :=
  crc32Table.getD ((crc ^^^ b.toUInt32) &&& 0xff).toNat 0 ^^^ (crc >>> 8)

/-- The two loops of `nftp_crc32`: eight bytes at a time, then the tail. -/
def crc32Body : UInt32 → Bytes → UInt32
  | crc, b0 :: b1 :: b2 :: b3 :: b4 :: b5 :: b6 :: b7 :: data =>
    crc32Body (crc32Byte (crc32Byte (crc32Byte (crc32Byte (crc32Byte (crc32Byte (crc32Byte (crc32Byte crc b0) b1) b2) b3)
      b4) b5) b6) b7) data
  | crc, data => data.foldl crc32Byte crc

def nftpCrc32 (data : Bytes) : UInt32 := crc32Body 0xffffffff data ^^^ 0xffffffff

-- the check values of CRC-32 and of CRC-8 with this polynomial and this start
example : nftpCrc32 [0x31, 0x32, 0x33, 0x34, 0x35, 0x36, 0x37, 0x38, 0x39] = 0xcbf43926 := by decide +kernel

example : nftpCrc [0x31, 0x32, 0x33, 0x34, 0x35, 0x36, 0x37, 0x38, 0x39] = 0xf7 := by decide +kernel

/-! ## CRC-32 -/

/-- Plain CRC-32, one bit at a time. -/
def crc32Bitwise (data : Bytes) : UInt32 :=
  .ofBitVec (crc 0xedb88320#32 0xffffffff#32 0xffffffff#32 (data.map UInt8.toBitVec))

theorem crc32Table_shifts : ∀ i < 256, (crc32Table.getD i 0).toBitVec = shifts 0xedb88320#32 8 (BitVec.ofNat 32 i) := by
  decide +kernel

theorem crc32Byte_toBitVec (c : UInt32) (b : UInt8) :
    (crc32Byte c b).toBitVec = crcStep 0xedb88320#32 c.toBitVec b.toBitVec := by
  have hlow : ((c ^^^ b.toUInt32) &&& 0xff).toBitVec = lowByte (c.toBitVec ^^^ b.toBitVec.setWidth 32) := rfl
  have hlt : ((c ^^^ b.toUInt32) &&& 0xff).toNat < 256 := by
    rw [UInt32.toNat_and]
    exact Nat.lt_succ_of_le Nat.and_le_right
  have hbyte : (b.toBitVec.setWidth 32) >>> 8 = 0#32 := by
    apply BitVec.eq_of_getLsbD_eq
    intro i _
    simp
  rw [crc32Byte, UInt32.toBitVec_xor, crc32Table_shifts _ hlt, ← UInt32.toNat_toBitVec, BitVec.ofNat_toNat, hlow, crcStep,
    shifts_eight (c.toBitVec ^^^ _), BitVec.ushiftRight_xor_distrib, hbyte, BitVec.xor_zero]
  simp

theorem crc32Body_toBitVec (c : UInt32) (data : Bytes) :
    (crc32Body c data).toBitVec = (data.map UInt8.toBitVec).foldl (crcStep 0xedb88320#32) c.toBitVec := by
  have hfold : ∀ (data : Bytes) (c : UInt32),
      (data.foldl crc32Byte c).toBitVec = (data.map UInt8.toBitVec).foldl (crcStep 0xedb88320#32) c.toBitVec := by
    intro data
    induction data with
    | nil => simp
    | cons b data ih => simp [ih, crc32Byte_toBitVec]
  fun_induction crc32Body c data with
  | case1 c b0 b1 b2 b3 b4 b5 b6 b7 data ih => simp [ih, crc32Byte_toBitVec]
  | case2 c data _ => exact hfold data c

/-- **The table and the unrolled loop compute plain CRC-32.** -/
theorem nftpCrc32_eq : nftpCrc32 = crc32Bitwise := by
  funext data
  apply UInt32.toBitVec_inj.1
  rw [nftpCrc32, UInt32.toBitVec_xor, crc32Body_toBitVec]
  rfl

/-! ## CRC-8 -/

/-- CRC-8, lowest bit first, of the message with the bits of each byte reversed. -/
def crc8Reflected (data : Bytes) : BitVec 8 := crc 0x8c#8 0xff#8 0#8 (data.map fun b => b.toBitVec.reverse)

theorem crc8Bit_reverse (c : UInt8) : (crc8Bit c).toBitVec.reverse = shift 0x8c#8 c.toBitVec.reverse := by
  have hall : ∀ v : BitVec 8, (crc8Bit ⟨v⟩).toBitVec.reverse = shift 0x8c#8 v.reverse := by decide +kernel
  exact hall c.toBitVec

theorem reverse_xor (x y : BitVec 8) : (x ^^^ y).reverse = x.reverse ^^^ y.reverse := by
  apply BitVec.eq_of_getLsbD_eq
  intro i hi
  simp [BitVec.getLsbD_reverse, BitVec.getMsbD_xor]

theorem crc8Byte_reverse (c b : UInt8) :
    (crc8Byte c b).toBitVec.reverse = crcStep 0x8c#8 c.toBitVec.reverse b.toBitVec.reverse := by
  have hbits : ∀ (n : ℕ) (c : UInt8), (crc8Bit^[n] c).toBitVec.reverse = shifts 0x8c#8 n c.toBitVec.reverse := by
    intro n
    induction n with
    | zero => simp
    | succ n ih => simp [Function.iterate_succ_apply', shifts_succ, crc8Bit_reverse, ih]
  rw [crc8Byte, hbits, crcStep, UInt8.toBitVec_xor, reverse_xor, BitVec.setWidth_eq]

/-- **`nftp_crc` is CRC-8 with its bits reversed.** -/
theorem nftpCrc_reverse (data : Bytes) : (nftpCrc data).toBitVec.reverse = crc8Reflected data := by
  have hfold : ∀ (data : Bytes) (c : UInt8), (data.foldl crc8Byte c).toBitVec.reverse =
      (data.map fun b => b.toBitVec.reverse).foldl (crcStep 0x8c#8) c.toBitVec.reverse := by
    intro data
    induction data with
    | nil => simp
    | cons b data ih => simp [ih, crc8Byte_reverse]
  have hstart : (0xff : UInt8).toBitVec.reverse = 0xff#8 := by decide +kernel
  rw [nftpCrc, hfold, hstart, crc8Reflected, crc, BitVec.xor_zero]

/-! ## What they see -/

theorem xor_byte_injective (c : UInt32) : Function.Injective fun b : UInt8 => c ^^^ b.toUInt32 := by
  intro x y h
  have hxy : x.toUInt32 = y.toUInt32 := by simpa using h
  have hnat := congrArg UInt32.toNat hxy
  apply UInt8.toNat_inj.1
  simpa using hnat

theorem mul_injective {a b : UInt32} (hinv : b * a = 1) : Function.Injective fun c => a * c := by
  intro x y h
  have hmul : b * (a * x) = b * (a * y) := congrArg (b * ·) h
  simpa [← UInt32.mul_assoc, hinv] using hmul

/-- The data are alike but for `k` bytes in a row. -/
def AlikeBut (i k : ℕ) (data data' : Bytes) : Prop :=
  data.length = data'.length ∧ ∀ j, j < i ∨ i + k ≤ j → data[j]? = data'[j]?

variable {data data' : Bytes} {i k : ℕ}

theorem AlikeBut.single (h : AlikeBut i k data data') (hk : k ≤ 1) : ∀ j, j ≠ i → data[j]? = data'[j]? := by
  intro j hj
  apply h.2
  omega

theorem crc_sees {w : ℕ} {p init out : BitVec w} (hp : p.getLsbD (w - 1) = true) {f : UInt8 → BitVec 8}
    (hf : Function.Injective f) (h : AlikeBut i k data data') (hk : 8 * k ≤ w)
    (hcrc : crc p init out (data.map f) = crc p init out (data'.map f)) : data = data' := by
  apply List.map_injective_iff.2 hf
  apply crc_within (i := i) hp (by simpa using h.1) hk _ hcrc
  intro j hj
  simp [h.2 j hj]

theorem nftpCrc32_sees (h : AlikeBut i k data data') (hk : k ≤ 4) (he : nftpCrc32 data = nftpCrc32 data') : data = data' := by
  have hf : Function.Injective UInt8.toBitVec := fun _ _ => UInt8.toBitVec_inj.1
  rw [nftpCrc32_eq] at he
  exact crc_sees (by decide) hf h (by omega) (congrArg UInt32.toBitVec he)

theorem nftpCrc_sees (h : AlikeBut i k data data') (hk : k ≤ 1) (he : nftpCrc data = nftpCrc data') : data = data' := by
  have hf : Function.Injective fun b : UInt8 => b.toBitVec.reverse := by
    intro x y hxy
    apply UInt8.toBitVec_inj.1
    simpa using congrArg BitVec.reverse hxy
  have hcrc : crc8Reflected data = crc8Reflected data' := by
    rw [← nftpCrc_reverse, ← nftpCrc_reverse, he]
  exact crc_sees (by decide) hf h (by omega) hcrc

theorem nftpDjbHashn_sees (h : AlikeBut i k data data') (hk : k ≤ 1) (he : nftpDjbHashn data = nftpDjbHashn data') :
    data = data' := by
  apply foldl_single _ _ h.1 (h.single hk) he
  · intro b x y hxy
    apply mul_injective (a := 33) (b := 0x3e0f83e1) (by decide)
    simpa using hxy
  · intro c
    exact xor_byte_injective (33 * c)

theorem nftpFnv1aHashn_sees (h : AlikeBut i k data data') (hk : k ≤ 1) (he : nftpFnv1aHashn data = nftpFnv1aHashn data') :
    data = data' := by
  have hmul : Function.Injective fun c : UInt32 => c * 0x01000193 := by
    intro x y hxy
    apply mul_injective (b := 0x359c449b) (a := 0x01000193) (by decide)
    simpa [UInt32.mul_comm] using hxy
  apply foldl_single _ _ h.1 (h.single hk) he
  · intro b x y hxy
    simpa using hmul hxy
  · intro c
    exact hmul.comp (xor_byte_injective c)

/-- **The other digests of `hash.c`.**  `nftp_crc32`, table and unrolled loop, is plain CRC-32 and sees every change that lies
within four bytes; the other three see every change of one byte. -/
theorem digests_see (data : Bytes) : nftpCrc32 data = crc32Bitwise data ∧
    ∀ (data' : Bytes) (i k : ℕ), AlikeBut i k data data' → data ≠ data' →
      (k ≤ 4 → nftpCrc32 data ≠ nftpCrc32 data') ∧
      (k ≤ 1 → nftpCrc data ≠ nftpCrc data' ∧ nftpDjbHashn data ≠ nftpDjbHashn data' ∧
        nftpFnv1aHashn data ≠ nftpFnv1aHashn data') := by
  constructor
  · rw [nftpCrc32_eq]
  · intro data' i k h hne
    constructor
    · intro hk he
      exact hne (nftpCrc32_sees h hk he)
    · intro hk
      refine ⟨fun he => ?_, fun he => ?_, fun he => ?_⟩
      · exact hne (nftpCrc_sees h hk he)
      · exact hne (nftpDjbHashn_sees h hk he)
      · exact hne (nftpFnv1aHashn_sees h hk he)

/-- Six bytes of which the four in the middle change, and of which one changes. -/
theorem digests_see_six : nftpCrc32 [1, 2, 3, 4, 5, 6] = crc32Bitwise [1, 2, 3, 4, 5, 6] ∧
    nftpCrc32 [1, 2, 3, 4, 5, 6] ≠ nftpCrc32 [1, 5, 4, 3, 2, 6] ∧ nftpCrc [1, 2, 3, 4, 5, 6] ≠ nftpCrc [1, 2, 7, 4, 5, 6] := by
  have hfour : AlikeBut 1 4 [1, 2, 3, 4, 5, 6] [1, 5, 4, 3, 2, 6] := by
    refine ⟨rfl, fun j hj => ?_⟩
    rcases hj with hj | hj
    · interval_cases j
      rfl
    · obtain ⟨j, rfl⟩ := Nat.exists_eq_add_of_le' hj
      rfl
  have hone : AlikeBut 2 1 [1, 2, 3, 4, 5, 6] [1, 2, 7, 4, 5, 6] := by
    refine ⟨rfl, fun j hj => ?_⟩
    rcases hj with hj | hj
    · interval_cases j <;> rfl
    · obtain ⟨j, rfl⟩ := Nat.exists_eq_add_of_le' hj
      rfl
  obtain ⟨heq, hsees⟩ := digests_see [1, 2, 3, 4, 5, 6]
  exact ⟨heq, (hsees _ 1 4 hfour (by decide)).1 (by decide), ((hsees _ 2 1 hone (by decide)).2 (by decide)).1⟩

end Nftp
