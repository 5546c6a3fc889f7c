import Nftp.Sender
import Nftp.Trace
/-!
# Maker — a packet says what was asked

The arguments of `nftp_proto_maker` are `int`s and its packets have fields of 8, 16 and 32 bits: the number of a block is
cut to 16 bits, the offset of a block is taken in 32, and the length handed back is an `int`.
-/
namespace Nftp

open Lib

variable {h : Host} {s : State} {r : Ret} {F v : Bytes} {n : Int} {t : MsgType}

/-- Block `k` of a file cut into blocks of `b` bytes. -/
def fileBlock (F : Bytes) (b k : ℕ) : Bytes := (F.drop (k * b)).take b

theorem fileBlock_length (F : Bytes) (b k : ℕ) : (fileBlock F b k).length = min b (F.length - k * b) := by
  rw [fileBlock, List.length_take, List.length_drop]

/-- **What reading a block gives**: the bytes at an offset taken in 32 bits; as many as the block has, or more by a multiple
of 2^32. -/
theorem fileReadblk_ok {ans : ReadAns} {d : Disk} {blksz : UInt32} {path : Path} (hn0 : 0 ≤ n) (hn : n < 2 ^ 31)
    (hr : fileReadblk ans d blksz path n = .ok (.ok, v)) : ∃ F m, d path = some F ∧
      v.length = (fileBlock F blksz.toNat n.toNat).length + m * 2 ^ 32 ∧
      v.take (fileBlock F blksz.toNat n.toNat).length =
        (F.drop (n.toNat * blksz.toNat % 2 ^ 32)).take (fileBlock F blksz.toNat n.toNat).length := by
  obtain ⟨k, rfl⟩ := Int.eq_ofNat_of_zero_le hn0
  have hk : sizeT k = k := sizeT_natCast (by omega)
  have hoff : (((k : Int) * blksz.toNat) % 2 ^ 32).toNat = k * blksz.toNat % 2 ^ 32 := by
    rw [← Nat.cast_mul]
    omega
  unfold fileReadblk at hr
  rw [Int.toNat_natCast]
  cases hd : d path with
  | none =>
    rw [hd] at hr
    cases hr
  | some F =>
    rw [hd] at hr
    simp only [hk, hoff] at hr
    split at hr
    · cases hr
    split at hr
    · cases hr
    rename_i hb
    have hpos : 0 < blksz.toNat := by
      rw [Nat.pos_iff_ne_zero]
      exact fun h0 => hb (UInt32.toNat_inj.1 h0)
    have hdm := Nat.div_add_mod F.length blksz.toNat
    have hlt := Nat.mod_lt F.length hpos
    rw [Nat.mul_comm] at hdm
    have hwrap := Nat.div_add_mod (k * blksz.toNat) (2 ^ 32)
    split at hr
    · cases hr
    rename_i hle
    split at hr
    · cases hr
    rename_i hunder
    have hblock := fileBlock_length F blksz.toNat k
    by_cases hlast : k = F.length / blksz.toNat
    · simp only [if_pos hlast] at hr
      split at hr
      · cases hr
      rename_i hread
      cases hr
      have hkb : k * blksz.toNat = F.length / blksz.toNat * blksz.toNat := by rw [← hlast]
      refine ⟨F, k * blksz.toNat / 2 ^ 32, rfl, ?_, ?_⟩
      · rw [List.length_take, List.length_drop]
        omega
      · rw [List.take_take, Nat.min_eq_left (by omega)]
    · simp only [if_neg hlast] at hr
      split at hr
      · cases hr
      rename_i hread
      obtain ⟨-, hlen⟩ := not_or.1 hread
      cases hr
      have hnext : (k + 1) * blksz.toNat ≤ F.length / blksz.toNat * blksz.toNat := Nat.mul_le_mul_right _ (by omega)
      rw [Nat.succ_mul] at hnext
      refine ⟨F, 0, rfl, by omega, ?_⟩
      rw [List.take_take, Nat.min_eq_left (by omega)]

/-! ## The length handed back -/

/-- A length up to 2^32 + 14 comes back, through an `int`, as one the decoder takes for the packet's own: it fits, or it
has wrapped to at least 6. -/
def IntLength (l : ℕ) : Prop := l < 2 ^ 31 ∨ 2 ^ 32 + 6 ≤ l

instance (l : ℕ) : Decidable (IntLength l) := inferInstanceAs (Decidable (_ ∨ _))

theorem sizeT_cInt_eq (l : ℕ) :
    sizeT (cInt l) = if l % 2 ^ 32 < 2 ^ 31 then l % 2 ^ 32 else 2 ^ 64 - 2 ^ 32 + l % 2 ^ 32 := by
  unfold sizeT cInt
  rw [Int.bmod_def]
  by_cases hl : l % 2 ^ 32 < 2 ^ 31
  · rw [if_pos hl]
    omega
  · rw [if_neg hl]
    omega

/-- **When the packet of a block decodes**: its length, modulo 2^32, is one of an `int` that is not too short.  The
content is then as many bytes as its own field says. -/
theorem parse_fileOf (ht : t = .file ∨ t = .fin) (f : Bytes) (n : Int) (v : Bytes) :
    (6 ≤ (15 + v.length) % 2 ^ 32 ∧ (15 + v.length) % 2 ^ 32 < 2 ^ 31 →
      ∃ q, parse ((fileOf t f n v).wire t) = .ok (.ok, q) ∧ MsgType.ofCode q.type = some t ∧ q.fileid = nftpHash f ∧
        q.blockseq = (fileOf t f n v).blockseq ∧ q.content = some (v.take (v.length % 2 ^ 32))) ∧
    (¬ (6 ≤ (15 + v.length) % 2 ^ 32 ∧ (15 + v.length) % 2 ^ 32 < 2 ^ 31) →
      ∀ q, parse ((fileOf t f n v).wire t) ≠ .ok (.ok, q)) := by
  have hlen := fileOf_length ht f n v
  have hplen : (fileOf t f n v).len.toNat = (15 + v.length) % 2 ^ 32 := by
    show (UInt32.ofNat (5 + 4 + 2 + 4 + v.length)).toNat = _
    rw [UInt32.toNat_ofNat']
  have htype : byteAt ((fileOf t f n v).wire t) 0 = .ok (fileOf t f n v).type := rfl
  have hgetlen : getU32 ((fileOf t f n v).wire t) 1 = .ok (fileOf t f n v).len := by
    simp only [Packet.wire, getU32_succ, putU32, List.cons_append, getU32_zero, u32_put]
  have hcode : MsgType.ofCode (fileOf t f n v).type = some t := MsgType.ofCode_code t
  rw [parse, hlen, sizeT_cInt_eq]
  constructor
  · rintro ⟨hmin, hmax⟩
    have hbody : (fileOf t f n v).body t = (fileOf t f n v).body .file := by
      rcases ht with rfl | rfl
      · rfl
      · exact body_fin _
    rw [if_pos hmax, decode, if_neg (by omega), if_neg (by omega), htype, bind_ok, hgetlen, bind_ok,
      if_neg (fun hne => hne hplen.symm), hcode]
    have hfile := decodeFile_wrapped (p := fileOf t f n v)
      { Packet.alloc with type := (fileOf t f n v).type, len := (fileOf t f n v).len } rfl rfl
      (fileOf t f n v).type (fileOf t f n v).len
    rw [← hbody] at hfile
    rcases ht with rfl | rfl
    · exact ⟨_, hfile, hcode, rfl, rfl, rfl⟩
    · exact ⟨_, hfile, hcode, rfl, rfl, rfl⟩
  · intro hno q
    by_cases hmax : (15 + v.length) % 2 ^ 32 < 2 ^ 31
    · rw [if_pos hmax, decode]
      by_cases h0 : (15 + v.length) % 2 ^ 32 = 0
      · rw [if_pos h0]
        intro h'
        cases h'
      · rw [if_neg h0, if_pos (by omega)]
        intro h'
        cases h'
    · rw [if_neg hmax, decode, if_neg (by omega), if_neg (by omega), htype, bind_ok, hgetlen, bind_ok]
      simp only [hplen]
      rw [if_pos (by omega)]
      intro h'
      cases h'

/-! ## What a packet says -/

/-- Block `k` reaches the packet: its bytes are found at the offset taken in 32 bits, and the packet has a length that
comes back. -/
def InReach (F : Bytes) (b k : ℕ) : Prop :=
  (F.drop (k * b % 2 ^ 32)).take (fileBlock F b k).length = fileBlock F b k ∧ IntLength (15 + (fileBlock F b k).length)

instance (F : Bytes) (b k : ℕ) : Decidable (InReach F b k) := inferInstanceAs (Decidable (_ ∧ _))

theorem inReach_of_lt {b k : ℕ} (hoff : k * b < 2 ^ 32) : InReach F b k ↔ IntLength (15 + (fileBlock F b k).length) := by
  refine and_iff_right ?_
  rw [Nat.mod_eq_of_lt hoff, fileBlock, List.length_take, ← List.take_eq_take_min]

/-- The fields of a packet made of `fpath`, `key` and `n`; the file is read at the path without its trailing slashes. -/
def Packet.Tells (q : Packet) (s : State) (fpath : Bytes) (key n : Int) : MsgType → Prop
  | .hello => (q.id.toNat : Int) = key % 256 ∧ q.fname = some (fileBname fpath) ∧
      q.namelen.toNat = (fileBname fpath).length ∧ ∃ F, s.fs.disk (fileCut fpath) = some F ∧ q.hashcode = nftpHash F
  | .ack => (q.id.toNat : Int) = key % 256 ∧ q.fileid = nftpHash (fileBname fpath)
  | .file | .fin => q.fileid = nftpHash (fileBname fpath) ∧ (q.blockseq.toNat : Int) = n ∧
      ∃ F, s.fs.disk (fileCut fpath) = some F ∧ q.content = some (fileBlock F s.blocksz.toNat n.toNat)
  | .giveme => q.fileid = nftpHash (fileBname fpath) ∧ (q.blockseq.toNat : Int) = n

/-- The bytes handed back, with the length handed back, decode to the packet. -/
def Ret.Decodes (r : Ret) (q : Packet) : Prop :=
  ∃ v, r.rmsg = some v ∧ decode Packet.alloc v (sizeT r.rlen) = .ok (.ok, q)

/-- Bytes handed back with their own length are decoded as a message received is. -/
theorem decodes_iff (v : Bytes) (S : State) (q : Packet) :
    Ret.Decodes ⟨.ok, some v, cInt v.length, S⟩ q ↔ parse v = .ok (.ok, q) := by
  unfold Ret.Decodes parse
  simp only [Option.some.injEq, exists_eq_left']

/-- What is handed back decodes to a packet of the type asked for that tells what was asked. -/
def Says (s : State) (fpath : Bytes) (t : MsgType) (key n : Int) (r : Ret) : Prop :=
  ∃ q, r.Decodes q ∧ MsgType.ofCode q.type = some t ∧ q.Tells s fpath key n t

/-- The number of the block fits its field, and the block reaches the packet. -/
def Sayable (s : State) (fpath : Bytes) (n : Int) : MsgType → Prop
  | .hello | .ack => True
  | .file | .fin => n < 2 ^ 16 ∧ ∀ F, s.fs.disk (fileCut fpath) = some F → InReach F s.blocksz.toNat n.toNat
  | .giveme => n < 2 ^ 16

theorem tells_iff {fpath : Bytes} {key : Int} (v : Bytes) (S : State) : Says s fpath t key n ⟨.ok, some v, cInt v.length, S⟩ ↔
    ∃ q, parse v = .ok (.ok, q) ∧ MsgType.ofCode q.type = some t ∧ q.Tells s fpath key n t := by
  simp only [Says, decodes_iff]

theorem id_eq (key : Int) : ((UInt8.ofNat (key % 256).toNat).toNat : Int) = key % 256 := by
  rw [UInt8.toNat_ofNat']
  omega

theorem blockseq_eq (hn0 : 0 ≤ n) : ((UInt16.ofNat (n % 2 ^ 16).toNat).toNat : Int) = n ↔ n < 2 ^ 16 := by
  rw [UInt16.toNat_ofNat']
  omega

theorem hello_tells {fpath : Bytes} {key : Int} (hr : makeHello h s (fileCut fpath) (fileBname fpath) key = .ok r)
    (hrv : r.rv = .ok) : Says s fpath .hello key n r := by
  obtain ⟨F, hs, hfits⟩ := makeHello_ok hr hrv
  have hf : (fileBname fpath).length < 2 ^ 16 := by
    have hle : (fileBname fpath).length ≤ fullpathSize := fileBname_length fpath (Nat.le_of_succ_le hfits) (by decide)
    have : fullpathSize = 320 := rfl
    omega
  obtain ⟨hsized, hsize⟩ := helloOf_sized s key F hf
  obtain ⟨q, hq, htype, hid, -, hnamelen, hfname, hhash⟩ := parse_wire hsized (by rw [hsize]; omega)
  rw [makeHello_sendable key hs, strcpyAt_ok (by omega), bind_ok,
    encodeReply_eq _ (t := .hello) rfl hsized.carries, ← wire_length hsized.carries] at hr
  cases hr
  refine (tells_iff _ _).2 ⟨q, hq, by rw [htype]; rfl, ?_, hfname, ?_, F, hs.file, hhash⟩
  · rw [hid]
    exact id_eq key
  · rw [hnamelen]
    exact UInt16.toNat_ofNat_of_lt' hf

theorem ack_tells {fpath : Bytes} {key : Int} (hr : protoMaker h s (some fpath) (some .ack) key n = .ok r) :
    Says s fpath .ack key n r := by
  let p : Packet := { Packet.alloc with
    type := MsgType.ack.code, len := 6 + 4, id := UInt8.ofNat (key % 256).toNat, fileid := nftpHash (fileBname fpath) }
  have hsized : p.Sized .ack := ⟨rfl, rfl, nofun, by simp⟩
  have hmake : encodeReply s p = .ok r := by
    rw [← hr]
    simp only [protoMaker, p]
  obtain ⟨q, hq, htype, hid, hfileid⟩ := parse_wire hsized (show 10 < 2 ^ 31 by decide)
  rw [encodeReply_eq s (t := .ack) rfl hsized.carries, ← wire_length hsized.carries] at hmake
  cases hmake
  refine (tells_iff _ _).2 ⟨q, hq, by rw [htype]; rfl, ?_, hfileid⟩
  rw [hid]
  exact id_eq key

theorem giveme_tells {fpath : Bytes} {key : Int} (hr : protoMaker h s (some fpath) (some .giveme) key n = .ok r)
    (hrv : r.rv = .ok) : Says s fpath .giveme key n r ↔ n < 2 ^ 16 := by
  let p : Packet := { Packet.alloc with
    type := MsgType.giveme.code, len := 5 + 4 + 2, fileid := nftpHash (fileBname fpath),
    blockseq := UInt16.ofNat (n % 2 ^ 16).toNat }
  have hsized : p.Sized .giveme := ⟨rfl, rfl, nofun, by simp⟩
  simp only [protoMaker] at hr
  by_cases hneg : 0 > n
  · rw [if_pos hneg] at hr
    cases hr
    cases hrv
  rw [if_neg hneg] at hr
  have hmake : encodeReply s p = .ok r := hr
  obtain ⟨q, hq, htype, hid, hblk⟩ := parse_wire hsized (show 11 < 2 ^ 31 by decide)
  rw [encodeReply_eq s (t := .giveme) rfl hsized.carries, ← wire_length hsized.carries] at hmake
  cases hmake
  rw [tells_iff]
  constructor
  · rintro ⟨q', hq', -, -, hseq⟩
    rw [hq] at hq'
    cases hq'
    rw [hblk] at hseq
    exact (blockseq_eq (Int.not_lt.1 hneg)).1 hseq
  · intro hlt
    refine ⟨q, hq, by rw [htype]; rfl, hid, ?_⟩
    rw [hblk]
    exact (blockseq_eq (Int.not_lt.1 hneg)).2 hlt

/-- **When the packet of a block says which block it is, and what it holds.** -/
theorem fileOf_tells (ht : t = .file ∨ t = .fin) (f : Bytes) {b : ℕ} (hn0 : 0 ≤ n) (hb : b < 2 ^ 32) {m : ℕ}
    (hlen : v.length = (fileBlock F b n.toNat).length + m * 2 ^ 32)
    (htake : v.take (fileBlock F b n.toNat).length = (F.drop (n.toNat * b % 2 ^ 32)).take (fileBlock F b n.toNat).length) :
    (∃ q, parse ((fileOf t f n v).wire t) = .ok (.ok, q) ∧ MsgType.ofCode q.type = some t ∧ q.fileid = nftpHash f ∧
      (q.blockseq.toNat : Int) = n ∧ q.content = some (fileBlock F b n.toNat)) ↔ n < 2 ^ 16 ∧ InReach F b n.toNat := by
  have hblock := fileBlock_length F b n.toNat
  have hmod : v.length % 2 ^ 32 = (fileBlock F b n.toNat).length := by omega
  have hint : (6 ≤ (15 + v.length) % 2 ^ 32 ∧ (15 + v.length) % 2 ^ 32 < 2 ^ 31) ↔
      IntLength (15 + (fileBlock F b n.toNat).length) := by
    unfold IntLength
    omega
  obtain ⟨hdec, hno⟩ := parse_fileOf ht f n v
  rw [hint] at hdec hno
  unfold InReach
  constructor
  · rintro ⟨q, hq, -, -, hseq, hcont⟩
    have hil : IntLength (15 + (fileBlock F b n.toNat).length) := by
      by_contra hil
      exact hno hil q hq
    obtain ⟨q', hq', -, -, hseq', hcont'⟩ := hdec hil
    rw [hq] at hq'
    cases hq'
    rw [hseq'] at hseq
    rw [hcont, hmod, htake, Option.some.injEq] at hcont'
    exact ⟨(blockseq_eq hn0).1 hseq, hcont'.symm, hil⟩
  · rintro ⟨hlt, hbytes, hil⟩
    obtain ⟨q, hq, htype, hid, hseq, hcont⟩ := hdec hil
    refine ⟨q, hq, htype, hid, ?_, ?_⟩
    · rw [hseq]
      exact (blockseq_eq hn0).2 hlt
    · rw [hcont, hmod, htake, hbytes]

theorem file_tells {fpath : Bytes} {key : Int} (ht : t = .file ∨ t = .fin) (hn : n < 2 ^ 31)
    (hr : makeFile h s (fileCut fpath) (fileBname fpath) t n = .ok r) (hrv : r.rv = .ok) :
    Says s fpath t key n r ↔ Sayable s fpath n t := by
  obtain ⟨hn0, v, hread⟩ : 0 ≤ n ∧ ∃ v, fileReadblk h.readblk s.fs.disk s.blocksz (fileCut fpath) n = .ok (.ok, v) := by
    unfold makeFile at hr
    by_cases hneg : 0 > n
    · rw [if_pos hneg] at hr
      cases hr
      cases hrv
    rw [if_neg hneg] at hr
    obtain ⟨⟨rv, v⟩, hread, hr⟩ := bind_eq_ok.1 hr
    by_cases hok : rv = .ok
    · exact ⟨Int.not_lt.1 hneg, v, by rw [hread, hok]⟩
    · simp only [ne_eq, if_pos hok] at hr
      cases hr
      exact absurd hrv hok
  rw [makeFile_read _ ht hn0 hread] at hr
  cases hr
  obtain ⟨F, m, hd, hlen, htake⟩ := fileReadblk_ok hn0 hn hread
  have htells := fileOf_tells ht (fileBname fpath) hn0 s.blocksz.toNat_lt hlen htake
  rw [tells_iff]
  rcases ht with rfl | rfl
  · simpa only [Packet.Tells, Sayable, hd, Option.some.injEq, forall_eq', exists_eq_left'] using htells
  · simpa only [Packet.Tells, Sayable, hd, Option.some.injEq, forall_eq', exists_eq_left'] using htells

/-- **For every state, path, type, key and number for which a packet is made**: it says what was asked exactly when the
number and the block can be said. -/
theorem maker_tells {fpath : Bytes} {key : Int} (hn : n < 2 ^ 31)
    (hr : protoMaker h s (some fpath) (some t) key n = .ok r) (hrv : r.rv = .ok) :
    Says s fpath t key n r ↔ Sayable s fpath n t := by
  cases t with
  | hello =>
    simp only [protoMaker] at hr
    exact iff_of_true (hello_tells hr hrv) trivial
  | ack => exact iff_of_true (ack_tells hr) trivial
  | file =>
    simp only [protoMaker] at hr
    exact file_tells (.inl rfl) hn hr hrv
  | fin =>
    simp only [protoMaker] at hr
    exact file_tells (.inr rfl) hn hr hrv
  | giveme => exact giveme_tells hr hrv

/-- Three bytes at `d/f`, cut into blocks of two. -/
def threeBytes : State :=
  State.boot none 2 { disk := fun q => if q = [0x64, slash, 0x66] then some [1, 2, 3] else none, ops := [] }

/-- The last block, asked for as `d/f/`. -/
theorem maker_tells_last : ∃ r, protoMaker .good threeBytes (some [0x64, slash, 0x66, slash]) (some .fin) 300 1 = .ok r ∧
    r.rv = .ok ∧ Says threeBytes [0x64, slash, 0x66, slash] .fin 300 1 r := by
  obtain ⟨r, hr, hrv⟩ : ∃ r, protoMaker .good threeBytes (some [0x64, slash, 0x66, slash]) (some .fin) 300 1 = .ok r ∧
      r.rv = .ok := by decide +kernel
  refine ⟨r, hr, hrv, (maker_tells (by decide) hr hrv).2 ⟨by decide, fun F hF => ?_⟩⟩
  have hthree : threeBytes.fs.disk (fileCut [0x64, slash, 0x66, slash]) = some [1, 2, 3] := by decide
  rw [hthree] at hF
  cases hF
  decide

/-- A GIVEME of block 65536 is made, and asks for block 0. -/
theorem giveme_cut : ∃ r, protoMaker .good threeBytes (some [0x66]) (some .giveme) 0 65536 = .ok r ∧ r.rv = .ok ∧
    ¬ Says threeBytes [0x66] .giveme 0 65536 r := by
  obtain ⟨r, hr, hrv⟩ : ∃ r, protoMaker .good threeBytes (some [0x66]) (some .giveme) 0 65536 = .ok r ∧ r.rv = .ok := by
    decide +kernel
  refine ⟨r, hr, hrv, ?_⟩
  rw [giveme_tells hr hrv]
  decide

end Nftp
