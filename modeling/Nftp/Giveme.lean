import Nftp.Maker
import Nftp.Table
/-!
# Giveme — a GIVEME is answered or refused

A sender keeps the path of a file under the id of its name (`SendersOk`), so that the reply, made again from the path,
is for the id asked for.  The GIVEME case does not look at what making the reply returns.
-/
namespace Nftp

open Lib

variable {h : Host} {s s' : State} {n : Packet} {msg : Bytes} {r : Ret} {F : Bytes} {p : Path} {blocks : ℕ}

/-! ## The paths kept -/

def SendersOk (s : State) : Prop :=
  ∀ key p, s.senderfiles key = some p → nftpHash (fileBname p) = key ∧ fileCut p = p ∧ p.length + 1 ≤ fullpathSize

theorem SendersOk.same (ho : SendersOk s) (hs : s'.senderfiles = s.senderfiles) : SendersOk s' := by
  unfold SendersOk
  rw [hs]
  exact ho

theorem SendersOk.offering (ho : SendersOk s) {fpath : Bytes} (hfits : (fileCut fpath).length + 1 ≤ fullpathSize) :
    SendersOk (s.offering (fileBname fpath) (fileCut fpath)) := by
  intro key p hp
  simp only [State.offering, htErase] at hp
  by_cases hkey : key = nftpHash (fileBname fpath)
  · rw [hkey, Function.update_self] at hp
    cases hp
    exact ⟨by rw [fileBname_fileCut, hkey], fileCut_fileCut fpath, hfits⟩
  · rw [Function.update_of_ne hkey, Function.update_of_ne hkey] at hp
    exact ho key p hp

theorem makeHello_senders {fpath : Bytes} {key : Int} (ho : SendersOk s)
    (hr : makeHello h s (fileCut fpath) (fileBname fpath) key = .ok r) : SendersOk r.st := by
  by_cases hs : ∃ F, Sendable h s (fileCut fpath) F
  · obtain ⟨F, hs⟩ := hs
    rw [makeHello_sendable key hs] at hr
    obtain ⟨u, hcopy, hr⟩ := bind_eq_ok.1 hr
    rw [encodeReply_state hr]
    exact ho.offering (by have := strcpyAt_eq_ok hcopy; omega)
  · rcases makeHello_refused (f := fileBname fpath) key (fun F hF => hs ⟨F, hF⟩) with he | ⟨rv, -, he⟩
    · rw [he] at hr
      cases hr
    · rw [he] at hr
      cases hr
      exact ho

theorem protoMaker_senders {fpath : Option Bytes} {t : Option MsgType} {key i : Int} (ho : SendersOk s)
    (hr : protoMaker h s fpath t key i = .ok r) : SendersOk r.st := by
  by_cases ht : t = some .hello
  · rw [ht] at hr
    cases fpath with
    | none => cases hr; exact ho
    | some fpath =>
      rw [protoMaker_makeHello] at hr
      exact makeHello_senders ho hr
  · rw [protoMaker_still ht hr]
    exact ho

theorem step_senders {e : Event} (hi : Inv s) (ho : SendersOk s) (hs : Step s e s') : SendersOk s' := by
  cases e with
  | msg h m =>
    obtain ⟨r, hr, hs⟩ := bind_eq_ok.1 hs
    cases hs
    rcases receive_effect hi hr with he | ⟨n, key, -, -, he⟩
    · rw [he]
      exact ho
    · exact ho.same he.senderfiles
  | register fname cb arg =>
    obtain ⟨-, -, hs', -⟩ := step_register hi.reg hs
    exact ho.same ((congrArg State.senderfiles hs').trans rfl)
  | unregister fname =>
    obtain ⟨-, -, hs', -⟩ := step_unregister hi.reg hs
    exact ho.same ((congrArg State.senderfiles hs').trans rfl)
  | recvStop h fname =>
    obtain ⟨rv, hr⟩ := step_recvStop hs
    rcases recvStop_cases hi.reg hr with ⟨-, -, rfl⟩ | ⟨c, -, -, ⟨-, -, rfl⟩ | ⟨-, -, -, -, -, hs', -⟩⟩
    · exact ho
    · exact ho.same rfl
    · exact ho.same ((congrArg State.senderfiles hs').trans rfl)
  | maker h fpath t key i =>
    obtain ⟨r, hr, hs⟩ := bind_eq_ok.1 hs
    cases hs
    exact protoMaker_senders ho hr
  | setRecvdir dir => cases hs; exact ho.same rfl
  | setBlocksz blksz => cases hs; exact ho.same rfl
  | disk disk => cases hs; exact ho.same rfl

theorem Live.senders (hl : Live s) : SendersOk s := by
  obtain ⟨-, ho⟩ := Reachable.invariant (I := fun s => Inv s ∧ SendersOk s)
    (fun s hb => ⟨booted_inv hb, fun key p hp => by rw [(booted_tables hb key).2] at hp; cases hp⟩)
    (fun s e s' hi hs => ⟨step_inv hi.1 hs, step_senders hi.1 hi.2 hs⟩) hl
  exact ho

/-! ## The reply -/

/-- A block of the file is answered with, as what `nftp_file_blocks` counts says: an END for the last one, a FILE for
those before it, with the id and the number asked for and that block; and what is behind the last block is refused. -/
def Answers (h : Host) (s : State) (msg : Bytes) (n : Packet) (F : Bytes) (blocks : ℕ) : Prop :=
  ∃ r, receive h s msg = .ok r ∧
    (n.blockseq.toNat < blocks → r.rv = .ok ∧ ∃ q, r.Decodes q ∧
      MsgType.ofCode q.type = some (if n.blockseq.toNat = blocks - 1 then .fin else .file) ∧ q.fileid = n.fileid ∧
      q.blockseq = n.blockseq ∧ q.content = some (fileBlock F s.blocksz.toNat n.blockseq.toNat)) ∧
    (blocks ≤ n.blockseq.toNat → r.rv ≠ .ok ∧ r.rmsg = none)

theorem fileBlocks_eq_ok {ans : ReadAns} {d : Disk} {blksz : UInt32} (hr : fileBlocks ans d blksz p = .ok (.ok, blocks))
    (hd : d p = some F) : ans ≠ .noOpen ∧ blksz ≠ 0 ∧ blocks = F.length / blksz.toNat + 1 := by
  have ho : ans ≠ .noOpen := by
    rintro rfl
    simp [fileBlocks, fileSize, hd] at hr
  have hb : blksz ≠ 0 := by
    rintro rfl
    simp [fileBlocks, fileSize, hd, ho] at hr
  rw [fileBlocks_eq ho hd hb] at hr
  cases hr
  exact ⟨ho, hb, rfl⟩

/-- Behind the last block no message is made. -/
theorem makeFile_behind (f : Bytes) {t : MsgType} {k : ℕ} (hread : h.readblk = .done) (hd : s.fs.disk p = some F)
    (hb : s.blocksz ≠ 0) (hk64 : k < 2 ^ 64) (hk : F.length / s.blocksz.toNat < k) :
    makeFile h s p f t k = .ok ⟨.blocks, none, 0, s⟩ := by
  have hsize : sizeT k = k := sizeT_natCast hk64
  have hblk : fileReadblk h.readblk s.fs.disk s.blocksz p k = .ok (.blocks, []) := by
    simp only [fileReadblk, hd, hread, reduceCtorEq, if_false, if_neg hb, hsize, if_pos hk]
  unfold makeFile
  rw [if_neg (by omega), hblk]
  rfl

/-- **What a GIVEME of a block is answered with.** -/
theorem giveme_block (ho : SendersOk s) (hs : s.senderfiles n.fileid = some p) (hd : s.fs.disk p = some F)
    (hread : h.readblk = .done) (hsize : h.size ≠ .noOpen) (hb : s.blocksz ≠ 0)
    (hoff : n.blockseq.toNat * s.blocksz.toNat < 2 ^ 32) (hk : n.blockseq.toNat ≤ F.length / s.blocksz.toNat) :
    ∃ t, t = (if n.blockseq.toNat = F.length / s.blocksz.toNat then MsgType.fin else .file) ∧
      handleGiveme h s n = .ok ⟨.ok,
        some ((fileOf t (fileBname p) n.blockseq.toNat (fileBlock F s.blocksz.toNat n.blockseq.toNat)).wire t),
        cInt ((fileOf t (fileBname p) n.blockseq.toNat (fileBlock F s.blocksz.toNat n.blockseq.toNat)).wire t).length, s⟩ := by
  obtain ⟨-, hc, hfits⟩ := ho _ _ hs
  have hty : (if n.blockseq.toNat = F.length / s.blocksz.toNat then MsgType.fin else MsgType.file) = .file ∨
      (if n.blockseq.toNat = F.length / s.blocksz.toNat then MsgType.fin else MsgType.file) = .fin := by
    split
    · exact .inr rfl
    · exact .inl rfl
  have hblk := fileReadblk_good hd hb hk n.blockseq.toNat_lt hoff
  rw [← hread] at hblk
  refine ⟨_, rfl, ?_⟩
  rw [handleGiveme_read hs hc hfits hsize hd hb, makeFile_read (fileBname p) hty (by omega) hblk, bind_ok]
  simp only [fileBlock]

/-- A GIVEME behind the last block is answered with 0 and no message. -/
theorem giveme_dropped (ho : SendersOk s) (hs : s.senderfiles n.fileid = some p) (hd : s.fs.disk p = some F)
    (hread : h.readblk = .done) (hsize : h.size ≠ .noOpen) (hb : s.blocksz ≠ 0)
    (hk : F.length / s.blocksz.toNat < n.blockseq.toNat) : handleGiveme h s n = .ok ⟨.ok, none, 0, s⟩ := by
  obtain ⟨-, hc, hfits⟩ := ho _ _ hs
  rw [handleGiveme_read hs hc hfits hsize hd hb,
    makeFile_behind (fileBname p) hread hd hb (Nat.lt_trans n.blockseq.toNat_lt (by decide)) hk, bind_ok]

/-- **For every state of a sender and every GIVEME of a file it keeps, which can be read**: it is answered or refused as
it should be exactly when the block is one of the file's and its message has a length that comes back. -/
theorem giveme_answered (hl : Live s) (hp : parse msg = .ok (.ok, n)) (ht : MsgType.ofCode n.type = some .giveme)
    (hs : s.senderfiles n.fileid = some p) (hd : s.fs.disk p = some F) (hread : h.readblk = .done)
    (hblocks : fileBlocks h.size s.fs.disk s.blocksz p = .ok (.ok, blocks))
    (hoff : n.blockseq.toNat < blocks → n.blockseq.toNat * s.blocksz.toNat < 2 ^ 32) :
    Answers h s msg n F blocks ↔
      n.blockseq.toNat < blocks ∧ IntLength (15 + (fileBlock F s.blocksz.toNat n.blockseq.toNat).length) := by
  obtain ⟨hsize, hb, rfl⟩ := fileBlocks_eq_ok hblocks hd
  obtain ⟨hkey, hc, hfits⟩ := hl.senders _ _ hs
  have hrun : receive h s msg = handleGiveme h s n := by rw [receive_of_parse h s hp, dispatch, ht]
  unfold Answers
  rw [hrun]
  by_cases hk : n.blockseq.toNat < F.length / s.blocksz.toNat + 1
  · have hoff' := hoff hk
    obtain ⟨t, ht', hgive⟩ := giveme_block hl.senders hs hd hread hsize hb hoff' (Nat.le_of_lt_succ hk)
    have hty : t = .file ∨ t = .fin := by
      rw [ht']
      split
      · exact .inr rfl
      · exact .inl rfl
    have htells := fileOf_tells (F := F) (v := fileBlock F s.blocksz.toNat n.blockseq.toNat) (n := n.blockseq.toNat) (m := 0)
      hty (fileBname p) (by omega) s.blocksz.toNat_lt (by simp) (by
        rw [Int.toNat_natCast, Nat.mod_eq_of_lt hoff', List.take_length, fileBlock, List.length_take, ← List.take_eq_take_min])
    have hseq : (n.blockseq.toNat : Int) < 2 ^ 16 := by
      have := n.blockseq.toNat_lt
      omega
    rw [Int.toNat_natCast, inReach_of_lt hoff', hkey] at htells
    rw [hgive]
    constructor
    · rintro ⟨r, hr, hok, -⟩
      cases hr
      obtain ⟨-, q, hq, hqt, hqid, hqseq, hqc⟩ := hok hk
      rw [decodes_iff] at hq
      rw [Nat.add_sub_cancel, ← ht'] at hqt
      exact ⟨hk, (htells.1 ⟨q, hq, hqt, hqid, by rw [hqseq], hqc⟩).2⟩
    · rintro ⟨-, hil⟩
      obtain ⟨q, hq, hqt, hqid, hqseq, hqc⟩ := htells.2 ⟨hseq, hil⟩
      refine ⟨_, rfl, fun _ => ⟨rfl, q, (decodes_iff _ _ q).2 hq, ?_, hqid, ?_, hqc⟩,
        fun hno => absurd hk (Nat.not_lt.2 hno)⟩
      · rw [Nat.add_sub_cancel, hqt, ht']
      · exact UInt16.toNat_inj.1 (by omega)
  · rw [giveme_dropped hl.senders hs hd hread hsize hb (by omega)]
    constructor
    · rintro ⟨r, hr, -, hno⟩
      cases hr
      exact absurd rfl (hno (Nat.not_lt.1 hk)).1
    · exact fun hk' => absurd hk'.1 hk

theorem threeBytes_kept : ∃ s, Live s ∧ s.senderfiles (nftpHash [0x66]) = some [0x66] ∧
    s.fs.disk [0x66] = some [1, 2, 3] ∧ s.blocksz = 2 :=
  trace_live none 2 { disk := fun q => if q = [0x66] then some [1, 2, 3] else none, ops := [] }
    [.maker .good (some [0x66]) (some .hello) 7 0] (fun s => s.senderfiles (nftpHash [0x66]) = some [0x66] ∧
      s.fs.disk [0x66] = some [1, 2, 3] ∧ s.blocksz = 2) (by decide +kernel)

/-- The second block, the last one, of a file of three bytes. -/
theorem giveme_answered_last : ∃ s msg n, Live s ∧ s.senderfiles n.fileid = some [0x66] ∧ n.blockseq.toNat = 1 ∧
    Answers .good s msg n [1, 2, 3] 2 := by
  obtain ⟨s, hl, hs, hd, hb⟩ := threeBytes_kept
  obtain ⟨msg, n, -, -, hp, ht, hid, hseq⟩ := protoMaker_giveme .good s [0x66] 0 (show 1 < 2 ^ 16 by decide)
  have hkept : s.senderfiles n.fileid = some [0x66] := by rw [hid]; exact hs
  have hblocks : fileBlocks Host.good.size s.fs.disk s.blocksz [0x66] = .ok (.ok, 2) := by
    rw [fileBlocks_eq (by decide) hd (by rw [hb]; decide), hb]
    rfl
  refine ⟨s, msg, n, hl, hkept, hseq, (giveme_answered (h := .good) hl hp ht hkept hd rfl hblocks fun _ => ?_).2 ?_⟩
  · rw [hseq, hb]
    decide
  · rw [hseq, hb]
    decide

/-- The third, of the two there are, is answered with 0 and no message. -/
theorem giveme_behind : ∃ s msg n, Live s ∧ parse msg = .ok (.ok, n) ∧ MsgType.ofCode n.type = some .giveme ∧
    s.senderfiles n.fileid = some [0x66] ∧ s.fs.disk [0x66] = some [1, 2, 3] ∧ s.blocksz = 2 ∧ n.blockseq.toNat = 2 ∧
    receive .good s msg = .ok ⟨.ok, none, 0, s⟩ ∧ ¬ Answers .good s msg n [1, 2, 3] 2 := by
  obtain ⟨s, hl, hs, hd, hb⟩ := threeBytes_kept
  obtain ⟨msg, n, -, -, hp, ht, hid, hseq⟩ := protoMaker_giveme .good s [0x66] 0 (show 2 < 2 ^ 16 by decide)
  have hkept : s.senderfiles n.fileid = some [0x66] := by rw [hid]; exact hs
  have hrun : receive .good s msg = .ok ⟨.ok, none, 0, s⟩ := by
    rw [receive_of_parse .good s hp, dispatch, ht]
    exact giveme_dropped hl.senders hkept hd rfl (by decide) (by rw [hb]; decide) (by rw [hseq, hb]; decide)
  refine ⟨s, msg, n, hl, hp, ht, hkept, hd, hb, hseq, hrun, ?_⟩
  rintro ⟨r, hr, -, hno⟩
  rw [hrun] at hr
  cases hr
  exact (hno (by rw [hseq])).1 rfl

end Nftp
