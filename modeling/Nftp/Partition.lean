import Nftp.Bounds
import Nftp.Repair
/-!
# Partition — the blocks a sender cuts its file into

The number of blocks in the HELLO, `nftp_file_blocks` and the offsets of `nftp_file_readblk` are computed apart, the
offsets in 32 bits.  `blocks_partition` says for which files they fit together.
-/
namespace Nftp

open Lib

variable {S S' : State} {F hello : Bytes} {path : Path}

/-- The file `F` at `path`, announced by `hello`, is partitioned by the blocks that can be read of it. -/
structure Partitions (S : State) (path : Path) (F hello : Bytes) : Prop where
  announced : ∃ q, parse hello = .ok (.ok, q) ∧ q.blocks.toNat = F.length / S.blocksz.toNat + 1 ∧
    fileBlocks .done S.fs.disk S.blocksz path = .ok (.ok, q.blocks.toNat)
  defined : ∀ n : Int, -2 ^ 31 ≤ n → n < 2 ^ 31 → Defined (fileReadblk .done S.fs.disk S.blocksz path n)
  succeeds : ∀ n : Int, -2 ^ 31 ≤ n → n < 2 ^ 31 → ((∃ v, fileReadblk .done S.fs.disk S.blocksz path n = .ok (.ok, v)) ↔
    0 ≤ n ∧ n < F.length / S.blocksz.toNat + 1)
  whole : ∃ bs : List Bytes, bs.length = F.length / S.blocksz.toNat + 1 ∧
    (∀ (k : ℕ) b, bs[k]? = some b → fileReadblk .done S.fs.disk S.blocksz path k = .ok (.ok, b)) ∧ bs.flatten = F
  /-- neither `n*b` nor the rest of the file behind it wraps -/
  offset : ∀ k, k < F.length / S.blocksz.toNat + 1 →
    k * S.blocksz.toNat % 2 ^ 32 = k * S.blocksz.toNat ∧ k * S.blocksz.toNat ≤ F.length

theorem fileReadblk_outside {ans : ReadAns} {d : Disk} {blksz : UInt32} {n : Int} (hd : d path = some F)
    (ho : ans ≠ .noOpen) (hb : blksz ≠ 0) (hn : F.length / blksz.toNat < sizeT n) :
    fileReadblk ans d blksz path n = .ok (.blocks, []) := by
  unfold fileReadblk
  simp only [hd, if_neg ho, if_neg hb]
  rw [if_pos hn]

/-- An index outside the file, as the comparison with `size_t` sees it. -/
theorem sizeT_outside {m : ℕ} {n : Int} (hm : m < 2 ^ 16) (hlo : -2 ^ 31 ≤ n) (hhi : n < 2 ^ 31)
    (hn : ¬ (0 ≤ n ∧ n < (m : Int) + 1)) : m < sizeT n := by
  unfold sizeT
  omega

/-- **The blocks of a file whose last offset has 32 bits partition it.** -/
theorem partitions_of_offset {q : Packet} (hd : S.fs.disk path = some F) (hb : S.blocksz ≠ 0)
    (hN : F.length / S.blocksz.toNat + 1 ≤ nftpBlockNum) (hq : parse hello = .ok (.ok, q))
    (hblocks : q.blocks.toNat = F.length / S.blocksz.toNat + 1)
    (hoff : F.length / S.blocksz.toNat * S.blocksz.toNat < 2 ^ 32) : Partitions S path F hello := by
  have hpos : 0 < S.blocksz.toNat := Nat.pos_of_ne_zero fun h0 => hb (UInt32.toNat_inj.1 h0)
  have hle : ∀ k, k < F.length / S.blocksz.toNat + 1 → k * S.blocksz.toNat ≤ F.length / S.blocksz.toNat * S.blocksz.toNat :=
    fun k hk => Nat.mul_le_mul_right _ (Nat.le_of_lt_succ hk)
  have hN16 : F.length / S.blocksz.toNat < 2 ^ 16 := by
    unfold nftpBlockNum at hN
    omega
  have hread : ∀ k, k < F.length / S.blocksz.toNat + 1 → fileReadblk .done S.fs.disk S.blocksz path k =
      .ok (.ok, (F.drop (k * S.blocksz.toNat)).take S.blocksz.toNat) := by
    intro k hk
    exact fileReadblk_good hd hb (Nat.le_of_lt_succ hk) (by omega) (Nat.lt_of_le_of_lt (hle k hk) hoff)
  have hout : ∀ n : Int, -2 ^ 31 ≤ n → n < 2 ^ 31 → ¬ (0 ≤ n ∧ n < ((F.length / S.blocksz.toNat : ℕ) : Int) + 1) →
      fileReadblk .done S.fs.disk S.blocksz path n = .ok (.blocks, []) :=
    fun n hlo hhi hn => fileReadblk_outside hd nofun hb (sizeT_outside hN16 hlo hhi hn)
  have hin : ∀ n : Int, 0 ≤ n ∧ n < ((F.length / S.blocksz.toNat : ℕ) : Int) + 1 →
      ∃ v, fileReadblk .done S.fs.disk S.blocksz path n = .ok (.ok, v) := by
    rintro n ⟨h0, hn⟩
    obtain ⟨k, rfl⟩ := Int.eq_ofNat_of_zero_le h0
    exact ⟨_, hread k (by omega)⟩
  refine ⟨⟨q, hq, hblocks, ?_⟩, fun n hlo hhi => ?_, fun n hlo hhi => ⟨?_, hin n⟩, ⟨chunks S.blocksz.toNat F, chunks_length _ _, ?_, ?_⟩, fun k hk => ?_⟩
  · simp only [fileBlocks, fileSize, hd, reduceCtorEq, if_false, ne_eq, not_true_eq_false, if_neg hb, hblocks]
  · by_cases hn : 0 ≤ n ∧ n < ((F.length / S.blocksz.toNat : ℕ) : Int) + 1
    · obtain ⟨v, hv⟩ := hin n hn
      exact ⟨_, hv⟩
    · exact ⟨_, hout n hlo hhi hn⟩
  · rintro ⟨v, hv⟩
    by_contra hn
    rw [hout n hlo hhi hn] at hv
    cases hv
  · intro k b hk
    have hlt := (List.getElem?_eq_some_iff.1 hk).1
    rw [chunks_length] at hlt
    rw [chunks_getElem? (Nat.le_of_lt_succ hlt)] at hk
    cases hk
    exact hread k hlt
  · exact chunks_flatten hpos F
  · have hdm := Nat.div_mul_le_self F.length S.blocksz.toNat
    have hk' := hle k hk
    exact ⟨Nat.mod_eq_of_lt (by omega), by omega⟩

/-- **For every file a HELLO is made for**, its blocks partition it exactly when the offset of the last one has 32 bits. -/
theorem blocks_partition {fpath : Bytes} {key i l : Int}
    (hr : protoMaker .good S (some fpath) (some .hello) key i = .ok ⟨.ok, some hello, l, S'⟩)
    (hd : S.fs.disk (fileCut fpath) = some F) :
    Partitions S' (fileCut fpath) F hello ↔ F.length / S.blocksz.toNat * S.blocksz.toNat < 2 ^ 32 := by
  obtain ⟨F', m, q, ho, hd', hblksz, hm, hq, -, -, hblocks, -⟩ := protoMaker_hello hr rfl
  rw [hd] at hd'
  cases hd'
  cases hm
  refine ⟨fun hp => ?_, fun hoff => partitions_of_offset ho.file ho.blocksz ho.blocks hq hblocks hoff⟩
  have hlast := (hp.offset _ (Nat.lt_succ_self _)).1
  rw [← hblksz, ← hlast]
  exact Nat.mod_lt _ (by decide)

/-- A file of three bytes, in blocks of two. -/
theorem blocks_partition_two : ∃ hello l S', protoMaker .good (senderOf [0x66] [1, 2, 3] 2) (some [0x66]) (some .hello) 7 0 =
      .ok ⟨.ok, some hello, l, S'⟩ ∧ Partitions S' [0x66] [1, 2, 3] hello := by
  have hF : (senderOf [0x66] [1, 2, 3] 2).fs.disk [0x66] = some [1, 2, 3] := rfl
  obtain ⟨m, -, hmake, -⟩ := makeHello_good (f := [0x66]) 7 hF (by decide) (by decide) (by decide) (by decide)
  have hmade : protoMaker .good (senderOf [0x66] [1, 2, 3] 2) (some [0x66]) (some .hello) 7 0 = _ := hmake
  exact ⟨m, _, _, hmade, (blocks_partition hmade hF).2 (by decide)⟩

/-- A file of `2 ^ 32` bytes in blocks of `2 ^ 31`: its HELLO is made, and its last block, which is empty, is read from
offset 0 and is the whole file. -/
theorem offset_wraps : ∃ (F hello : Bytes) (l : Int) (S' : State), F = List.replicate (2 ^ 32) 0 ∧
    protoMaker .good (senderOf [0x66] F 0x80000000) (some [0x66]) (some .hello) 7 0 = .ok ⟨.ok, some hello, l, S'⟩ ∧
    fileReadblk .done S'.fs.disk S'.blocksz [0x66] 2 = .ok (.ok, F) ∧ ¬ Partitions S' [0x66] F hello := by
  obtain ⟨F, hrep⟩ : ∃ F : Bytes, F = List.replicate (2 ^ 32) 0 := ⟨_, rfl⟩
  have hlen : F.length = 2 ^ 32 := by rw [hrep, List.length_replicate]
  have hb : (0x80000000 : UInt32).toNat = 2 ^ 31 := rfl
  have hdiv : F.length / (0x80000000 : UInt32).toNat = 2 := by rw [hlen, hb]; rfl
  have hF : (senderOf [0x66] F 0x80000000).fs.disk [0x66] = some F := rfl
  have hblksz : (senderOf [0x66] F 0x80000000).blocksz = 0x80000000 := rfl
  obtain ⟨m, -, hmake, -⟩ := makeHello_good (f := [0x66]) 7 hF (by rw [hblksz]; decide)
    (by rw [hblksz, hdiv]; decide) (by decide) (by decide)
  refine ⟨F, m, _, _, hrep, hmake, ?_, fun hp => ?_⟩
  · have h2 : sizeT 2 = 2 := by decide
    have hoff : (((2 : Int) * ((0x80000000 : UInt32).toNat : ℕ)) % 2 ^ 32).toNat = 0 := by decide
    show fileReadblk .done (senderOf [0x66] F 0x80000000).fs.disk 0x80000000 [0x66] 2 = _
    unfold fileReadblk
    have hreach : ¬ 2 ^ 63 ≤ 0 + F.length := by omega
    simp only [hF, hdiv, h2, hoff, reduceCtorEq, if_false, if_true, lt_irrefl, Nat.not_lt_zero, and_false, false_and,
      false_or, Nat.sub_zero, List.drop_zero, List.take_length, ne_eq, not_true_eq_false, if_neg hreach]
    rfl
  · have hlt : 2 < F.length / (0x80000000 : UInt32).toNat + 1 := by rw [hdiv]; decide
    have hlast : 2 * (0x80000000 : UInt32).toNat % 2 ^ 32 = 2 * (0x80000000 : UInt32).toNat := (hp.offset 2 hlt).1
    exact absurd hlast (by decide)

end Nftp
