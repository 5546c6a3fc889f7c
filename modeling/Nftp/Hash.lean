import Nftp.Basic
/-!
# Hash — `hash.c`, CRC-32C

The checksum both peers use as file id and as file hash: the tables of `crc32c_init_sw` and the three loops of
`crc32c_sw` (bytes up to an 8-byte boundary, eight bytes at a time, the tail).
-/
namespace Nftp

/-- `POLY`. -/
def poly : UInt32 := 0x82f63b78

/-- One of the eight statements `crc = crc & 1 ? (crc >> 1) ^ POLY : crc >> 1`. -/
def crcBit (crc : UInt32) : UInt32 :=
  if crc &&& 1 ≠ 0 then (crc >>> 1) ^^^ poly else crc >>> 1

/-- `crc32c_table[k][n]` as `crc32c_init_sw` fills it. -/
def crc32cTable : Nat → UInt32 → UInt32
  | 0, n => crcBit (crcBit (crcBit (crcBit (crcBit (crcBit (crcBit (crcBit n)))))))
  | k + 1, n => crc32cTable 0 (crc32cTable k n &&& 0xff) ^^^ (crc32cTable k n >>> 8)

/-- `crc32c_table[k][i & 0xff]` read with a `uint64_t` index. -/
def tableAt (k : Nat) (i : UInt64) : UInt64 := (crc32cTable k (i &&& 0xff).toUInt32).toUInt64

/-- The body of the byte loops. -/
def crc32cByte (crc : UInt64) (b : UInt8) : UInt64 := tableAt 0 (crc ^^^ b.toUInt64) ^^^ (crc >>> 8)

/-- `le64toh` of eight bytes of the buffer. -/
def le64 (b0 b1 b2 b3 b4 b5 b6 b7 : UInt8) : UInt64 :=
  b0.toUInt64 ||| (b1.toUInt64 <<< 8) ||| (b2.toUInt64 <<< 16) ||| (b3.toUInt64 <<< 24) ||| (b4.toUInt64 <<< 32) |||
    (b5.toUInt64 <<< 40) ||| (b6.toUInt64 <<< 48) ||| (b7.toUInt64 <<< 56)

/-- The body of the eight-byte loop, `crc` being already xored with the eight bytes. -/
def crc32cWord (crc : UInt64) : UInt64 :=
  tableAt 7 crc ^^^ tableAt 6 (crc >>> 8) ^^^ tableAt 5 (crc >>> 16) ^^^ tableAt 4 (crc >>> 24) ^^^
    tableAt 3 (crc >>> 32) ^^^ tableAt 2 (crc >>> 40) ^^^ tableAt 1 (crc >>> 48) ^^^ tableAt 0 (crc >>> 56)

/-- The first loop: bytes up to an 8-byte boundary of the address `next`. -/
def crc32cHead : Nat → UInt64 → Bytes → UInt64 × Bytes
  | next, crc, b :: buf =>
    if next % 8 ≠ 0 then crc32cHead (next + 1) (crc32cByte crc b) buf else (crc, b :: buf)
  | _, crc, [] => (crc, [])

/-- The second loop: eight bytes at a time, then the tail. -/
def crc32cBody : UInt64 → Bytes → UInt64
  | crc, b0 :: b1 :: b2 :: b3 :: b4 :: b5 :: b6 :: b7 :: buf =>
    crc32cBody (crc32cWord (crc ^^^ le64 b0 b1 b2 b3 b4 b5 b6 b7)) buf
  | crc, buf => buf.foldl crc32cByte crc

/-- `crc32c_sw` on a buffer at address `next`. -/
def crc32cSw (crci : UInt32) (next : Nat) (buf : Bytes) : UInt32 :=
  let crc := (crci ^^^ 0xffffffff).toUInt64
  let (crc, buf) := crc32cHead next crc buf
  (crc32cBody crc buf).toUInt32 ^^^ 0xffffffff

/-- `nftp_crc32c` of the `n` bytes of `data` at address `next`. -/
def crc32c (next : Nat) (data : Bytes) : UInt32 := crc32cSw 0 next data

/-- `NFTP_HASH` of a buffer that `malloc` returned, hence aligned. -/
def nftpHash (data : Bytes) : UInt32 := crc32c 0 data

-- the check value of CRC-32C, the checksum of "123456789"
example : nftpHash [0x31, 0x32, 0x33, 0x34, 0x35, 0x36, 0x37, 0x38, 0x39] = 0xe3069283 := by decide +kernel

end Nftp
