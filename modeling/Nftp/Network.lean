import Nftp.Giveme
import Nftp.Repair
import Nftp.Lib.Channel
/-!
# Network — a file from its sender to its receiver

Two endpoints and the network between them.  The sender offers a file, sends its blocks and answers a GIVEME; the receiver
handles what arrives, asks for the block it needs, and meanwhile handles the messages of other transfers.  Messages are
lost, repeated and reordered at will, a HELLO too, which starts its transfer over.  Whatever happens, a file that is
published is the file offered, and a transfer that is going can be brought to its end.
-/
namespace Nftp

open Lib

variable {S S' s s' : State} {msg : Bytes} {r : Ret} {c : Nctx} {n : Packet} {h : Host}

/-! ## A file offered -/

/-- A file on its way: the name it goes under, where its sender keeps it, what it holds, and the length of its blocks. -/
structure Offered where
  fname : Bytes
  path : Path
  content : Bytes
  blocksz : UInt32

namespace Offered

def fileid (o : Offered) : UInt32 := nftpHash o.fname

def blocks (o : Offered) : List Bytes := chunks o.blocksz.toNat o.content

/-- The offsets of its blocks have 32 bits, and the messages of its blocks have a length that an `int` holds. -/
structure Fits (o : Offered) : Prop where
  offset : ∀ k, k ≤ o.content.length / o.blocksz.toNat → k * o.blocksz.toNat < 2 ^ 32
  short : ∀ b ∈ o.blocks, 15 + b.length < 2 ^ 31

/-- The sender keeps the file, has offered it and cuts it as before. -/
structure Kept (o : Offered) (S : State) : Prop extends Offers S o.fname o.path o.content where
  cut : S.blocksz = o.blocksz

def IsOffer (o : Offered) (msg : Bytes) : Prop :=
  ∃ n, parse msg = .ok (.ok, n) ∧ MsgType.ofCode n.type = some .hello ∧ n.name = o.fname ∧
    n.blocks.toNat = o.blocks.length ∧ n.hashcode = nftpHash o.blocks.flatten

/-- What the sender sends: the HELLO of the file, or a block of it. -/
def Sent (o : Offered) (msg : Bytes) : Prop := o.IsOffer msg ∨ ∃ k, BlockOf o.fileid o.blocks k msg

/-- What the receiver sends: an ACK, or a GIVEME of a block the file has. -/
def Asked (o : Offered) (msg : Bytes) : Prop :=
  ∃ q, parse msg = .ok (.ok, q) ∧ (MsgType.ofCode q.type = some .ack ∨
    MsgType.ofCode q.type = some .giveme ∧ q.fileid = o.fileid ∧ q.blockseq.toNat < o.blocks.length)

def transfer (o : Offered) (wfname : Bytes) (fcb : Addr) (record : FileCb) : Transfer :=
  ⟨o.fileid, wfname, fcb, record, o.blocks⟩

/-- The receiver receives the file, some of its blocks having arrived but not all. -/
def Going (o : Offered) (s : State) : Prop :=
  ∃ w a rcd R c, (o.transfer w a rcd).Holds s R c ∧ R ≠ Finset.range o.blocks.length

structure Received (o : Offered) (s : State) : Prop where
  inv : Inv s
  going : s.files o.fileid = none ∨ o.Going s

end Offered

variable {o : Offered}

/-! ## The two parties -/

/-- What the sender does: it makes the HELLO of the file and the messages of its blocks, answers what arrives, and makes
messages of other files. -/
inductive Sends (o : Offered) (S : State) : Option Bytes → Option Bytes → State → Prop
  | hello {fpath : Bytes} {key i : Int} {r : Ret} : fileCut fpath = o.path →
      protoMaker .good S (some fpath) (some .hello) key i = .ok r → Sends o S none r.rmsg r.st
  | block {fpath : Bytes} {t : MsgType} {key : Int} {k : ℕ} {r : Ret} : fileCut fpath = o.path → t = .file ∨ t = .fin →
      k < o.blocks.length → protoMaker .good S (some fpath) (some t) key k = .ok r → Sends o S none r.rmsg r.st
  | answer {msg : Bytes} {r : Ret} : receive .good S msg = .ok r → Sends o S (some msg) r.rmsg r.st
  | other {h : Host} {fpath : Bytes} {t : Option MsgType} {key i : Int} {r : Ret} :
      nftpHash (fileBname fpath) ≠ o.fileid → protoMaker h S (some fpath) t key i = .ok r → Sends o S none none r.st

/-- The message is of another transfer than the one under the file id, and its name shares no file with that one's. -/
def Strange (s : State) (fileid : UInt32) (msg : Bytes) : Prop :=
  ∀ n, parse msg = .ok (.ok, n) →
    n.key ≠ some fileid ∧ ∀ c, s.files fileid = some c → ∀ v, Concerns s n v → FilesApart s v c.wfname

/-- What the receiver does: it handles what arrives, sending the reply to a HELLO; it asks for the block it needs; it
handles messages of other transfers, whatever the C library answers them; and callbacks are registered. -/
inductive Receives (o : Offered) (s : State) : Option Bytes → Option Bytes → State → Prop
  | hello {msg : Bytes} {n : Packet} {r : Ret} : parse msg = .ok (.ok, n) → MsgType.ofCode n.type = some .hello →
      receive .good s msg = .ok r → Receives o s (some msg) r.rmsg r.st
  | handle {msg : Bytes} {r : Ret} : receive .good s msg = .ok r → Receives o s (some msg) none r.st
  | ask {fname : Bytes} {key seq : Int} {cap : Option ℕ} {r : Ret} : fileBname fname = o.fname →
      protoRecvStatus s fname = (.ok, cap, seq) → protoMaker .good s (some fname) (some .giveme) key seq = .ok r →
      Receives o s none r.rmsg r.st
  | other {h : Host} {msg : Bytes} {r : Ret} : Strange s o.fileid msg → receive h s msg = .ok r → Receives o s none none r.st
  | register {fname : Option Bytes} {cb : Option Nat} {arg : Nat} {rv : Rv} {s' : State} :
      protoRegister s fname cb arg = .ok (rv, s') → Receives o s none none s'

/-! ## What the sender guarantees -/

namespace Offered

theorem Kept.blocks_eq (hk : o.Kept S) : o.blocks = chunks S.blocksz.toNat o.content := by
  rw [Offered.blocks, hk.cut]

theorem blocks_length (o : Offered) : o.blocks.length = o.content.length / o.blocksz.toNat + 1 := by
  rw [Offered.blocks, chunks_length]

theorem Kept.pos (hk : o.Kept S) : 0 < o.blocksz.toNat := by
  refine Nat.pos_of_ne_zero fun h0 => hk.blocksz ?_
  rw [hk.cut]
  exact UInt32.toNat_inj.1 h0

theorem Kept.flatten (hk : o.Kept S) : o.blocks.flatten = o.content := chunks_flatten hk.pos o.content

/-- What a maker of another name does to the offer. -/
theorem Kept.elsewhere {fpath : Bytes} {t : Option MsgType} {key i : Int} (hk : o.Kept S)
    (hne : nftpHash (fileBname fpath) ≠ o.fileid) (hr : protoMaker h S (some fpath) t key i = .ok r) : o.Kept r.st := by
  have hst := protoMaker_state hr
  have hne' : nftpHash o.fname ≠ nftpHash (fileBname fpath) := Ne.symm hne
  have hsender : r.st.senderfiles (nftpHash o.fname) = S.senderfiles (nftpHash o.fname) := by
    by_cases ht : t = some .hello
    · rw [ht, protoMaker_makeHello] at hr
      by_cases hs : ∃ F, Sendable h S (fileCut fpath) F
      · obtain ⟨F, hs⟩ := hs
        rw [makeHello_sendable key hs] at hr
        obtain ⟨-, -, hr⟩ := bind_eq_ok.1 hr
        rw [encodeReply_state hr]
        show Function.update (htErase S.senderfiles _) _ _ _ = _
        rw [htErase, Function.update_of_ne hne', Function.update_of_ne hne']
      · rcases makeHello_refused (f := fileBname fpath) key (fun F hF => hs ⟨F, hF⟩) with he | ⟨rv, -, he⟩
        · rw [he] at hr
          cases hr
        · rw [he] at hr
          cases hr
          rfl
    · rw [protoMaker_still ht hr]
  have hfs : r.st.fs = S.fs := (congrArg State.fs hst).trans rfl
  have hblk : r.st.blocksz = S.blocksz := (congrArg State.blocksz hst).trans rfl
  exact ⟨hk.toOffers.same ⟨hsender, by rw [hfs], hblk⟩, hblk.trans hk.cut⟩

/-- The message of a block. -/
theorem Kept.makeBlock (hk : o.Kept S) (hf : o.Fits) {t : MsgType} (ht : t = .file ∨ t = .fin) {k : ℕ}
    (hlt : k < o.blocks.length) : ∃ a, makeFile .good S o.path o.fname t k = .ok ⟨.ok, some a, cInt a.length, S⟩ ∧
      BlockOf o.fileid o.blocks k a := by
  have hle : k ≤ o.content.length / o.blocksz.toNat := by
    rw [blocks_length] at hlt
    omega
  have hle' : k ≤ o.content.length / S.blocksz.toNat := by rw [hk.cut]; exact hle
  have hk16 : k < 2 ^ 16 := by
    have hN := hk.blocks
    rw [nftpBlockNum] at hN
    omega
  have hb : o.blocks[k]? = some ((o.content.drop (k * S.blocksz.toNat)).take S.blocksz.toNat) := by
    rw [hk.blocks_eq]
    exact chunks_getElem? hle'
  obtain ⟨a, hmake, halen, hparse⟩ := makeFile_good o.fname ht hk.file hk.blocksz hle' hk16
    (by rw [hk.cut]; exact hf.offset k hle)
  obtain ⟨q, hq, hqt, hqid, hqseq, hqcont⟩ := hparse (by rw [halen]; exact hf.short _ (List.mem_of_getElem? hb))
  refine ⟨a, hmake, hlt, q, hq, ?_, hqid, hqseq, by rw [hqcont, hb]⟩
  rcases ht with rfl | rfl
  · exact .inl hqt
  · exact .inr hqt

theorem Kept.makeHello (hk : o.Kept S) {fpath : Bytes} {key i : Int} (hpath : fileCut fpath = o.path)
    (hr : protoMaker .good S (some fpath) (some .hello) key i = .ok r) :
    o.Kept r.st ∧ ∃ m, r.rmsg = some m ∧ o.IsOffer m := by
  have hname : fileBname fpath = o.fname := by rw [← fileBname_fileCut, hpath, hk.bname]
  have hlen : o.fname.length < 2 ^ 16 := by
    have hfits := hk.fits
    have hcut : (fileCut o.path).length ≤ 2 ^ 15 := by
      rw [hk.trimmed]
      exact Nat.le_trans (Nat.le_of_succ_le hfits) (by decide)
    have hle := fileBname_length o.path hcut (by decide)
    rw [hk.bname] at hle
    omega
  obtain ⟨m, q, hmake, -, hq, hqt, hqname, hqblocks, hqhash⟩ :=
    makeHello_good key hk.file hk.blocksz hk.blocks hk.fits hlen
  rw [protoMaker_makeHello, hpath, hname, hmake] at hr
  cases hr
  refine ⟨⟨⟨?_, hk.file, hk.blocksz, hk.blocks, hk.trimmed, hk.bname, hk.fits⟩, hk.cut⟩, m, rfl, q, hq, hqt, ?_, ?_, ?_⟩
  · show Function.update _ _ _ _ = _
    rw [Function.update_self]
  · rw [Packet.name, hqname, Option.getD_some, ← hk.bname, cstr_fileBname]
  · rw [hqblocks, blocks_length, hk.cut]
  · rw [hqhash, hk.flatten]

/-- A GIVEME is answered with its block. -/
theorem Kept.gives (hk : o.Kept S) (hf : o.Fits) {q : Packet} (hq : parse msg = .ok (.ok, q))
    (hqt : MsgType.ofCode q.type = some .giveme) (hqid : q.fileid = o.fileid) (hqseq : q.blockseq.toNat < o.blocks.length) :
    ∃ a, receive .good S msg = .ok ⟨.ok, some a, cInt a.length, S⟩ ∧ BlockOf o.fileid o.blocks q.blockseq.toNat a := by
  have hle : q.blockseq.toNat ≤ o.content.length / o.blocksz.toNat := by
    rw [blocks_length] at hqseq
    omega
  obtain ⟨t, a, ht, hgive, hmake⟩ := handleGiveme_good hk.toOffers hqid (by rw [hk.cut]; exact hle)
    (by rw [hk.cut]; exact hf.offset _ hle)
  obtain ⟨a', hmake', hblock⟩ := hk.makeBlock hf ht hqseq
  rw [hmake'] at hmake
  cases hmake
  refine ⟨a, ?_, hblock⟩
  rw [receive_of_parse .good S hq, dispatch, hqt]
  exact hgive

/-- What arrives changes nothing: an ACK has no answer, and a GIVEME that of its block. -/
theorem Kept.answer (hk : o.Kept S) (hf : o.Fits) (ha : o.Asked msg) (hr : receive .good S msg = .ok r) :
    r.st = S ∧ ∀ a ∈ r.rmsg, o.Sent a := by
  obtain ⟨q, hq, hqt | ⟨hqt, hqid, hqseq⟩⟩ := ha
  · rw [receive_of_parse .good S hq, dispatch, hqt] at hr
    cases hr
    exact ⟨rfl, fun a ha => by cases ha⟩
  · obtain ⟨a, hgive, hblock⟩ := hk.gives hf hq hqt hqid hqseq
    rw [hgive] at hr
    cases hr
    exact ⟨rfl, fun x hx => by cases hx; exact .inr ⟨_, hblock⟩⟩

end Offered

/-- **The sender** keeps its offer, and sends the HELLO and the blocks of the file. -/
theorem sends_guarantees (hf : o.Fits) : Guarantees (Sends o) o.Kept o.Asked o.Sent := by
  intro S i out S' hk hi hs
  cases hs with
  | hello hpath hr =>
    obtain ⟨hk', m, hm, hoffer⟩ := hk.makeHello hpath hr
    refine ⟨hk', fun x hx => ?_⟩
    rw [hm] at hx
    cases hx
    exact .inl hoffer
  | @block fpath t key k r hpath ht hlt hr =>
    obtain ⟨a, hmake, hblock⟩ := hk.makeBlock hf ht hlt
    have hr' : makeFile .good S (fileCut fpath) (fileBname fpath) t k = .ok r := by
      rcases ht with rfl | rfl <;> exact hr
    have hname : fileBname fpath = o.fname := by rw [← fileBname_fileCut, hpath, hk.bname]
    rw [hpath, hname, hmake] at hr'
    cases hr'
    exact ⟨hk, fun x hx => by cases hx; exact .inr ⟨k, hblock⟩⟩
  | answer hr =>
    obtain ⟨hst, hsent⟩ := hk.answer hf (hi _ rfl) hr
    rw [hst]
    exact ⟨hk, hsent⟩
  | other hne hr => exact ⟨hk.elsewhere hne hr, fun x hx => by cases hx⟩

/-! ## What the receiver guarantees -/

theorem parse_ackOf (id : UInt8) (f : Bytes) :
    ∃ q, parse (ackOf id f) = .ok (.ok, q) ∧ MsgType.ofCode q.type = some .ack := by
  let p : Packet := { Packet.alloc with type := MsgType.ack.code, len := 6 + 4, id := id, fileid := nftpHash (fileBname f) }
  have hsized : p.Sized .ack := ⟨rfl, rfl, nofun, by simp⟩
  obtain ⟨q, hq, htype, -⟩ := parse_wire hsized (show 10 < 2 ^ 31 by decide)
  have hlen : putU32 (6 + 4) = [0, 0, 0, 10] := by decide
  have hwire : p.wire .ack = ackOf id f := by
    rw [Packet.wire, body_ack]
    simp only [p, hlen]
    rfl
  rw [hwire] at hq
  exact ⟨q, hq, by rw [htype]; rfl⟩

namespace Offered

theorem Received.going_of (hr : o.Received s) (hc : s.files o.fileid = some c) : o.Going s :=
  hr.going.resolve_left fun hnone => by rw [hnone] at hc; cases hc

/-- **A HELLO of the file starts its transfer**, or starts it over; or it changes nothing. -/
theorem start (hi : Inv s) (ho : o.IsOffer msg) (hr : receive .good s msg = .ok r) :
    (r.st = s ∨ o.Going r.st) ∧ ∀ a ∈ r.rmsg, ∃ id, a = ackOf id o.fname := by
  obtain ⟨n, hp, ht, hname, hblocks, hhash⟩ := ho
  rw [receive_of_parse .good s hp, dispatch] at hr
  simp only [ht] at hr
  rcases handleHello_cases hi.reg hr with
    ⟨-, rfl⟩ | ⟨-, a, s₁, w, path, -, hb, -, hpath, ⟨hno, -⟩ | ⟨-, rv, rmsg, rlen, hcode, rfl⟩⟩
  · exact ⟨.inl rfl, fun a ha => by cases ha⟩
  · cases hno
  obtain ⟨rfl, hfits⟩ := partPath_eq_ok hpath
  obtain ⟨rcd, hrcd, hrname⟩ := hb.record
  have hdir : s₁.recvdir = s.recvdir := (congrArg State.recvdir hb.eq).trans rfl
  refine ⟨.inr ⟨w, a, rcd, ∅, helloCtx n a w, ⟨Finset.empty_subset _, ?_, hblocks, firstMissing_empty.symm, rfl, rfl, hhash, ?_,
    ?_, ?_, hb.heap a rcd hrcd, ?_⟩, ?_⟩, ?_⟩
  · show Function.update s.files (nftpHash n.name) _ (nftpHash o.fname) = _
    rw [hname, Function.update_self]
  · intro k e _ he
    rw [if_neg (Finset.notMem_empty k), helloCtx_empty he]
  · show (s.fs.created (s.part w)).disk (s₁.recvdir.getD [] ++ (w ++ dotPart)) = _
    rw [hdir]
    exact created_self ..
  · show NameFits s₁.recvdir w
    rw [hdir]
    exact hfits
  · rcases hrname with h' | h'
    · exact .inr (congrArg nftpHash (h'.trans hname))
    · exact .inl h'
  · intro h0
    have hmem : 0 ∈ Finset.range o.blocks.length := Finset.mem_range.2 (by rw [blocks_length]; exact Nat.succ_pos _)
    rw [← h0] at hmem
    exact Finset.notMem_empty 0 hmem
  · rcases hcode with ⟨-, -, rfl, -⟩ | ⟨-, -, rfl, -⟩
    · exact fun a ha => by cases ha
    · intro a ha
      cases ha
      exact ⟨n.id, by rw [hname]⟩

/-- **A block of the file** keeps its transfer going or ends it; it is refused when there is none. -/
theorem Received.block (hd : o.Received s) {k : ℕ} (hmsg : BlockOf o.fileid o.blocks k msg) :
    (s.files o.fileid = none ∧ receive .good s msg = .ok ⟨.ht, none, 0, s⟩) ∨
    ∃ w a rcd R c, (o.transfer w a rcd).Holds s R c ∧
      ((insert k R ≠ Finset.range o.blocks.length ∧ ∃ s' c', receive .good s msg = .ok ⟨.ok, none, 0, s'⟩ ∧
          (o.transfer w a rcd).Holds s' (insert k R) c') ∨
       (insert k R = Finset.range o.blocks.length ∧ ∃ s', receive .good s msg = .ok ⟨.ok, some w, cInt w.length, s'⟩ ∧
          (o.transfer w a rcd).Done s' ∧ s'.calls = s.calls ++ callOf o.fileid rcd)) := by
  rcases hd.going with hnone | ⟨w, a, rcd, R, c, hh, -⟩
  · left
    obtain ⟨-, n, hp, hblock, hid, -⟩ := hmsg
    refine ⟨hnone, ?_⟩
    rw [receive_block hp hblock, handleFile, hid]
    simp only [hnone, State.ret]
  · right
    refine ⟨w, a, rcd, R, c, hh, ?_⟩
    by_cases hall : insert k R = Finset.range o.blocks.length
    · obtain ⟨s', hr, hdone, hcalls⟩ := hh.last_block hd.inv hmsg hall
      exact .inr ⟨hall, s', hr, hdone, hcalls⟩
    · obtain ⟨s', c', hr, hh', -⟩ := hh.block hd.inv hmsg hall
      exact .inl ⟨hall, s', c', hr, hh'⟩

/-- A message of another transfer leaves this one as it is. -/
theorem Received.strange (hd : o.Received s) (hs : Strange s o.fileid msg) (hr : receive h s msg = .ok r) :
    r.st.files o.fileid = s.files o.fileid ∧ o.Received r.st := by
  have hinv := receive_inv hd.inv hr
  rcases hd.going with hnone | ⟨w, a, rcd, R, c, hh, hmore⟩
  · have hsame : r.st.files o.fileid = s.files o.fileid := by
      rcases receive_effect hd.inv hr with hst | ⟨n, key, hp, hkey, he⟩
      · rw [hst]
      · exact he.files _ fun hk => (hs n hp).1 (by rw [hkey, hk])
    exact ⟨hsame, hinv, .inl (hsame.trans hnone)⟩
  · have haside := receive_aside (o.transfer w a rcd) hd.inv
      (fun n hp => ⟨(hs n hp).1, fun v hv => by rw [← hh.wfname]; exact (hs n hp).2 c hh.files v hv⟩) hr
    exact ⟨haside.files, hinv, .inr ⟨w, a, rcd, R, c, hh.aside haside, hmore⟩⟩

/-- A registration may give the record of the transfer another callback. -/
theorem Received.register (hd : o.Received s) {fname : Option Bytes} {cb : Option Nat} {arg : Nat} {rv : Rv}
    (hr : protoRegister s fname cb arg = .ok (rv, s')) : s'.files = s.files ∧ o.Received s' := by
  have hs : Step s (.register fname cb arg) s' := by
    show State.after s (.register fname cb arg) = .ok s'
    rw [State.after, hr]
    rfl
  obtain ⟨-, -, hs', hrecs⟩ := step_register hd.inv.reg hs
  have hfiles : s'.files = s.files := (congrArg State.files hs').trans rfl
  have hfs : s'.fs = s.fs := (congrArg State.fs hs').trans rfl
  have hdir : s'.recvdir = s.recvdir := (congrArg State.recvdir hs').trans rfl
  refine ⟨hfiles, step_inv hd.inv hs, hd.going.imp (fun hnone => by rw [hfiles]; exact hnone) ?_⟩
  rintro ⟨w, a, rcd, R, c, hh, hmore⟩
  obtain ⟨rcd', hrcd', hname⟩ := hrecs.old a rcd hh.heap
  refine ⟨w, a, rcd', R, c, ⟨hh.sub, (congrFun hfiles _).trans hh.files, hh.cap, hh.next, hh.wfname, hh.fcb, hh.hashcode,
    hh.cache, ?_, ?_, hrcd', ?_⟩, hmore⟩
  · rw [part_congr hdir, hfs]
    exact hh.part
  · rw [hdir]
    exact hh.fits
  · show rcd'.fname = star ∨ nftpHash rcd'.fname = o.fileid
    rw [hname]
    exact hh.name

/-- The position of a transfer that is going is a block of the file. -/
theorem next_lt {w : Bytes} {a : Addr} {rcd : FileCb} {R : Finset ℕ} (hh : (o.transfer w a rcd).Holds s R c)
    (hmore : R ≠ Finset.range o.blocks.length) : c.nextid < o.blocks.length := by
  rw [hh.next]
  exact Nat.lt_of_le_of_ne (firstMissing_le hh.sub) fun he => hmore ((firstMissing_eq_iff_range hh.sub).1 he)

/-- Asking for the block that is next. -/
theorem Going.asks (hN : o.blocks.length ≤ nftpBlockNum) (hg : o.Going s) (hc : s.files o.fileid = some c)
    {fname : Bytes} (key : Int)
    (hname : fileBname fname = o.fname) : ∃ g q, protoRecvStatus s fname = (.ok, some c.cap, (c.nextid : ℤ)) ∧
      protoMaker .good s (some fname) (some .giveme) key c.nextid = .ok ⟨.ok, some g, cInt g.length, s⟩ ∧
      parse g = .ok (.ok, q) ∧ MsgType.ofCode q.type = some .giveme ∧ q.fileid = o.fileid ∧
      q.blockseq.toNat = c.nextid ∧ c.nextid < o.blocks.length := by
  obtain ⟨w, a, rcd, R, c', hh, hmore⟩ := hg
  have hcc : c' = c := Option.some.inj (hh.files.symm.trans hc)
  subst hcc
  have hlt := next_lt hh hmore
  have hk16 : c'.nextid < 2 ^ 16 := by
    rw [nftpBlockNum] at hN
    omega
  obtain ⟨g, q, hmake, -, hq, hqt, hqid, hqseq⟩ := protoMaker_giveme .good s fname key hk16
  rw [hname] at hqid
  refine ⟨g, q, ?_, hmake, hq, hqt, hqid, hqseq, hlt⟩
  rw [protoRecvStatus, hname, show s.files (nftpHash o.fname) = some c' from hc]

end Offered

/-- **The receiver** keeps the transfer, and sends ACKs and GIVEMEs of blocks of the file. -/
theorem receives_guarantees (hN : o.blocks.length ≤ nftpBlockNum) :
    Guarantees (Receives o) o.Received o.Sent o.Asked := by
  intro s i out s' hd hi hs
  cases hs with
  | @hello msg n r hp ht hr =>
    have hoffer : o.IsOffer msg := by
      rcases hi _ rfl with hoffer | ⟨k, -, n', hp', hblock, -⟩
      · exact hoffer
      · rw [hp] at hp'
        cases hp'
        exact absurd ht hblock.not_hello
    obtain ⟨hst, hack⟩ := Offered.start hd.inv hoffer hr
    refine ⟨⟨receive_inv hd.inv hr, ?_⟩, fun a ha => ?_⟩
    · rcases hst with hst | hgo
      · rw [hst]
        exact hd.going
      · exact .inr hgo
    · obtain ⟨id, rfl⟩ := hack a ha
      obtain ⟨q, hq, hqt⟩ := parse_ackOf id o.fname
      exact ⟨q, hq, .inl hqt⟩
  | @handle msg r hr =>
    refine ⟨⟨receive_inv hd.inv hr, ?_⟩, fun a ha => by cases ha⟩
    rcases hi _ rfl with hoffer | ⟨k, hblock⟩
    · rcases (Offered.start hd.inv hoffer hr).1 with hst | hgo
      · rw [hst]
        exact hd.going
      · exact .inr hgo
    · rcases hd.block hblock with ⟨hnone, hr'⟩ | ⟨w, a, rcd, R, c, hh, ⟨hmore, s', c', hr', hh'⟩ | ⟨-, s', hr', hdone, -⟩⟩
      · rw [hr'] at hr
        cases hr
        exact .inl hnone
      · rw [hr'] at hr
        cases hr
        exact .inr ⟨w, a, rcd, _, c', hh', hmore⟩
      · rw [hr'] at hr
        cases hr
        exact .inl hdone.files
  | @ask fname key seq cap r hname hstatus hr =>
    cases hc : s.files o.fileid with
    | none =>
      have hnone : protoRecvStatus s fname = (.ht, none, -1) := by
        rw [protoRecvStatus, hname, show s.files (nftpHash o.fname) = none from hc]
      rw [hnone] at hstatus
      cases hstatus
    | some c =>
      obtain ⟨g, q, hstatus', hmake, hq, hqt, hqid, hqseq, hlt⟩ := (hd.going_of hc).asks hN hc key hname
      rw [hstatus'] at hstatus
      cases hstatus
      rw [hmake] at hr
      cases hr
      exact ⟨hd, fun a ha => by cases ha; exact ⟨q, hq, .inr ⟨hqt, hqid, by rw [hqseq]; exact hlt⟩⟩⟩
  | other hstrange hr => exact ⟨(hd.strange hstrange hr).2, fun a ha => by cases ha⟩
  | register hr => exact ⟨(hd.register hr).2, fun a ha => by cases ha⟩

/-! ## Every run -/

abbrev Net := Link State State Bytes Bytes

/-- The two endpoints and the network take a step. -/
abbrev NetStep (o : Offered) : Net → Turn Bytes Bytes → Net → Prop := LinkStep (Sends o) (Receives o)

/-- The file is where its transfer is saved to and the part file is gone; the callback ran, once. -/
structure Offered.Arrived (o : Offered) (c : Nctx) (s s' : State) : Prop where
  final : s'.fs.disk (s'.final c.wfname) = some o.content
  part : s'.fs.disk (s'.part c.wfname) = none
  calls : ∃ a rcd, c.fcb = some a ∧ s.heap a = some rcd ∧ s'.calls = s.calls ++ callOf o.fileid rcd

variable {l l' : Net}

abbrev Offered.Sound (o : Offered) (l : Net) : Prop := Link.Sound o.Kept o.Received o.Sent o.Asked l

theorem Offered.Sound.count (hl : o.Sound l) : o.blocks.length ≤ nftpBlockNum := by
  rw [Offered.blocks_length, ← hl.left.cut]
  exact hl.left.blocks

theorem Offered.Sound.step (hf : o.Fits) (hl : o.Sound l) {e : Turn Bytes Bytes} (hs : NetStep o l e l') : o.Sound l' :=
  Link.Sound.step (sends_guarantees hf) (receives_guarantees hl.count) hl hs

/-- **A step that ends the transfer publishes the file.** -/
theorem Offered.Sound.ends (hl : o.Sound l) {e : Turn Bytes Bytes} (hs : NetStep o l e l')
    (hc : l.right.files o.fileid = some c) (hend : l'.right.files o.fileid = none) : o.Arrived c l.right l'.right := by
  have hstay : ∀ {s : State}, s.files o.fileid = l.right.files o.fileid → s.files o.fileid ≠ none := fun hsame hnone => by
    rw [hsame, hc] at hnone
    cases hnone
  have hoffer : ∀ {msg : Bytes} {r : Ret}, o.IsOffer msg → receive .good l.right msg = .ok r → r.st.files o.fileid ≠ none := by
    intro msg r hoffer hr hnone
    rcases (Offered.start hl.right.inv hoffer hr).1 with hst | ⟨w, a, rcd, R, c', hh, -⟩
    · exact hstay (by rw [hst]) hnone
    · have hfiles : r.st.files o.fileid = some c' := hh.files
      rw [hfiles] at hnone
      cases hnone
  cases hs with
  | left hi ha => exact absurd hend (hstay rfl)
  | right hi hb =>
    cases hb with
    | hello hp ht hr =>
      rcases hl.rightward _ (hi _ rfl) with ho | ⟨k, -, n', hp', hblock, -⟩
      · exact absurd hend (hoffer ho hr)
      · rw [hp] at hp'
        cases hp'
        exact absurd ht hblock.not_hello
    | handle hr =>
      rcases hl.rightward _ (hi _ rfl) with ho | ⟨k, hblock⟩
      · exact absurd hend (hoffer ho hr)
      · rcases hl.right.block hblock with ⟨hnone, -⟩ | ⟨w, a, rcd, R, c', hh, ⟨-, s', c'', hr', hh'⟩ | ⟨-, s', hr', hdone, hcalls⟩⟩
        · exact absurd hnone (hstay rfl)
        · rw [hr'] at hr
          cases hr
          replace hend : s'.files o.fileid = none := hend
          rw [show s'.files o.fileid = some c'' from hh'.files] at hend
          cases hend
        · rw [hr'] at hr
          cases hr
          have hcc : c' = c := Option.some.inj (hh.files.symm.trans hc)
          subst hcc
          refine ⟨?_, ?_, a, rcd, hh.fcb, hh.heap, hcalls⟩
          · rw [hh.wfname, ← hl.left.flatten]
            exact hdone.final
          · rw [hh.wfname]
            exact hdone.part
    | ask hname hstatus hr =>
      refine absurd hend (hstay ?_)
      rw [protoMaker_still (by simp) hr]
    | other hstrange hr => exact absurd hend (hstay (hl.right.strange hstrange hr).1)
    | register hr => exact absurd hend (hstay (congrFun (hl.right.register hr).1 _))

/-- The first blocks of a file are a prefix of it. -/
theorem Offered.take_blocks (o : Offered) {k : ℕ} (hk : k ≤ o.blocks.length) :
    (o.blocks.take k).flatten = o.content.take (k * o.blocksz.toNat) := by
  rw [Offered.blocks_length] at hk
  rw [Offered.blocks, chunks, ← List.map_take, List.take_range, Nat.min_eq_left (by omega), pieces_flatten]

/-- **One round with the sender**: the block that is next is asked for, sent and handled. -/
theorem Offered.Sound.round (hf : o.Fits) (hl : o.Sound l) {w : Bytes} {a : Addr} {rcd : FileCb} {R : Finset ℕ}
    (hh : (o.transfer w a rcd).Holds l.right R c) (hmore : R ≠ Finset.range o.blocks.length) : ∃ e₁ e₂ e₃ l',
      Run (NetStep o) l [e₁, e₂, e₃] l' ∧
      ((∃ c', (o.transfer w a rcd).Holds l'.right (insert c.nextid R) c' ∧ insert c.nextid R ≠ Finset.range o.blocks.length) ∨
        (o.transfer w a rcd).Done l'.right) := by
  have hname : fileBname o.fname = o.fname := by rw [← hl.left.bname, fileBname_fileBname]
  obtain ⟨g, q, hstatus, hmake, hq, hqt, hqid, hqseq, hlt⟩ :=
    Offered.Going.asks hl.count ⟨w, a, rcd, R, c, hh, hmore⟩ hh.files 0 hname
  obtain ⟨m, hgive, hblock⟩ := hl.left.gives hf hq hqt hqid (by rw [hqseq]; exact hlt)
  rw [hqseq] at hblock
  have hask : Receives o l.right none (some g) l.right := .ask (r := ⟨.ok, some g, cInt g.length, l.right⟩) hname hstatus hmake
  have hanswer : Sends o l.left (some g) (some m) l.left := .answer (r := ⟨.ok, some m, cInt m.length, l.left⟩) hgive
  by_cases hall : insert c.nextid R = Finset.range o.blocks.length
  · obtain ⟨s', hr, hdone, -⟩ := hh.last_block hl.right.inv hblock hall
    obtain ⟨l', hrun, -, hright⟩ := Link.exchange hask hanswer (Receives.handle hr)
    exact ⟨_, _, _, l', hrun, .inr (by rw [hright]; exact hdone)⟩
  · obtain ⟨s', c', hr, hh', -⟩ := hh.block hl.right.inv hblock hall
    obtain ⟨l', hrun, -, hright⟩ := Link.exchange hask hanswer (Receives.handle hr)
    exact ⟨_, _, _, l', hrun, .inl ⟨c', by rw [hright]; exact hh', hall⟩⟩

/-- As many rounds as blocks are missing, at most. -/
theorem Offered.Sound.rounds (hf : o.Fits) {w : Bytes} {a : Addr} {rcd : FileCb} :
    ∀ (m : ℕ) {l : Net} {R : Finset ℕ} {c : Nctx},
    o.Sound l → (o.transfer w a rcd).Holds l.right R c → R ≠ Finset.range o.blocks.length →
    o.blocks.length ≤ firstMissing R + m → ∃ es l', es.length ≤ 3 * m ∧ Run (NetStep o) l es l' ∧
      (o.transfer w a rcd).Done l'.right
  | 0, l, R, c, _, hh, hmore, hm => by
    have hle := firstMissing_le hh.sub
    exact absurd ((firstMissing_eq_iff_range hh.sub).1 (Nat.le_antisymm hle hm)) hmore
  | m + 1, l, R, c, hl, hh, hmore, hm => by
    obtain ⟨e₁, e₂, e₃, l₁, hrun, ⟨c', hh', hmore'⟩ | hdone⟩ := hl.round hf hh hmore
    · have hl₁ : o.Sound l₁ := Link.Sound.run (sends_guarantees hf) (receives_guarantees hl.count) hl hrun
      have hup : firstMissing R < firstMissing (insert c.nextid R) := by
        rw [hh.next]
        exact lt_firstMissing_insert _
      obtain ⟨es, l', hes, hrun', hdone⟩ := Offered.Sound.rounds hf m hl₁ hh' hmore' (by omega)
      refine ⟨[e₁, e₂, e₃] ++ es, l', ?_, hrun.append hrun', hdone⟩
      rw [List.length_append]
      show 3 + es.length ≤ _
      omega
    · exact ⟨[e₁, e₂, e₃], l₁, by show 3 ≤ _; omega, hrun, hdone⟩

/-- The endpoints when the HELLO of the file has been made and sent, and nothing else has. -/
structure Offered.Started (o : Offered) (l : Net) : Prop where
  made : ∃ S₀ fpath key i hello len, protoMaker .good S₀ (some fpath) (some .hello) key i = .ok ⟨.ok, some hello, len, l.left⟩ ∧
    S₀.fs.disk (fileCut fpath) = some o.content ∧ o = ⟨fileBname fpath, fileCut fpath, o.content, S₀.blocksz⟩ ∧
    l.rightward = [hello]
  leftward : l.leftward = []
  live : Live l.right
  idle : l.right.files o.fileid = none

theorem Offered.Started.sound {l₀ : Net} (h₀ : o.Started l₀) : o.Sound l₀ := by
  obtain ⟨S₀, fpath, key, i, hello, len, hmake, hF, ho, hsent⟩ := h₀.made
  obtain ⟨F, m, q, hoffers, hd, hblk, hm, hq, hqt, hqname, hqblocks, hqhash⟩ := protoMaker_hello hmake rfl
  have hFF : F = o.content := Option.some.inj (hd.symm.trans hF)
  subst hFF
  have hname : o.fname = fileBname fpath := congrArg Offered.fname ho
  have hpath : o.path = fileCut fpath := congrArg Offered.path ho
  have hcut : o.blocksz = S₀.blocksz := congrArg Offered.blocksz ho
  have hkept : o.Kept l₀.left := ⟨by rw [hname, hpath]; exact hoffers, hblk.trans hcut.symm⟩
  refine ⟨hkept, ⟨h₀.live.inv, .inl h₀.idle⟩, fun x hx => ?_, fun y hy => ?_⟩
  · have hmsg : hello = m := Option.some.inj (congrArg Ret.rmsg hm)
    rw [hsent, List.mem_singleton] at hx
    rw [hx, hmsg]
    exact .inl ⟨q, hq, hqt, hqname.trans hname.symm, by rw [hqblocks, Offered.blocks_length, hcut],
      by rw [hqhash, hkept.flatten]⟩
  · rw [h₀.leftward] at hy
    cases hy

/-- **Transfer over the network is safe.**  In every state the two endpoints reach, the part file of the transfer is a prefix of
the file offered, and each of its blocks that was sent is handled, whenever it arrives: with success when there is a
transfer, and refused otherwise.  A step that ends the transfer publishes the file offered and runs the callback once. -/
theorem network_safe {l₀ : Net} {es : List (Turn Bytes Bytes)} (hf : o.Fits) (h₀ : o.Started l₀)
    (hrun : Run (NetStep o) l₀ es l) :
    (∀ c, l.right.files o.fileid = some c → c.nextid < o.blocks.length ∧
      l.right.fs.disk (l.right.part c.wfname) = some (o.content.take (c.nextid * o.blocksz.toNat))) ∧
    (∀ msg ∈ l.rightward, ∀ n, parse msg = .ok (.ok, n) → n.IsBlock → ∃ r, receive .good l.right msg = .ok r ∧
      (r.rv = .ok ↔ (l.right.files o.fileid).isSome)) ∧
    ∀ e l', NetStep o l e l' → ∀ c, l.right.files o.fileid = some c → l'.right.files o.fileid = none →
      o.Arrived c l.right l'.right := by
  have hl₀ := h₀.sound
  have hl : o.Sound l := Link.Sound.run (sends_guarantees hf) (receives_guarantees hl₀.count) hl₀ hrun
  refine ⟨fun c hc => ?_, fun msg hmsg n hp hblock => ?_, fun e l' hs c hc hend => hl.ends hs hc hend⟩
  · obtain ⟨w, a, rcd, R, c', hh, hmore⟩ := hl.right.going_of hc
    have hcc : c' = c := Option.some.inj (hh.files.symm.trans hc)
    subst hcc
    have hlt := Offered.next_lt hh hmore
    refine ⟨hlt, ?_⟩
    rw [hh.wfname, ← o.take_blocks hlt.le]
    exact hh.part
  · rcases hl.rightward msg hmsg with ⟨n', hp', ht', -⟩ | ⟨k, hk⟩
    · rw [hp] at hp'
      cases hp'
      exact absurd ht' hblock.not_hello
    · rcases hl.right.block hk with ⟨hnone, hr⟩ | ⟨w, a, rcd, R, c, hh, hcase⟩
      · exact ⟨_, hr, iff_of_false (show Rv.ht ≠ .ok by decide) (by rw [hnone]; exact Bool.false_ne_true)⟩
      · have hsome : (l.right.files o.fileid).isSome = true := by
          rw [show l.right.files o.fileid = some c from hh.files]
          rfl
        rcases hcase with ⟨-, s', c', hr, -⟩ | ⟨-, s', hr, -⟩
        · exact ⟨_, hr, iff_of_true rfl hsome⟩
        · exact ⟨_, hr, iff_of_true rfl hsome⟩

/-- **A transfer that is going can always be brought to its end**, whatever was lost, repeated and reordered before: three
steps for each block of the file are enough. -/
theorem network_completes {l₀ : Net} {es : List (Turn Bytes Bytes)} (hf : o.Fits) (h₀ : o.Started l₀)
    (hrun : Run (NetStep o) l₀ es l) (hc : l.right.files o.fileid = some c) : ∃ es' l', es'.length ≤ 3 * o.blocks.length ∧
      Run (NetStep o) l es' l' ∧ l'.right.files o.fileid = none ∧
      l'.right.fs.disk (l'.right.final c.wfname) = some o.content := by
  have hl₀ := h₀.sound
  have hl : o.Sound l := Link.Sound.run (sends_guarantees hf) (receives_guarantees hl₀.count) hl₀ hrun
  obtain ⟨w, a, rcd, R, c', hh, hmore⟩ := hl.right.going_of hc
  have hcc : c' = c := Option.some.inj (hh.files.symm.trans hc)
  subst hcc
  obtain ⟨es', l', hes, hrun', hdone⟩ := Offered.Sound.rounds hf o.blocks.length hl hh hmore (Nat.le_add_left _ _)
  refine ⟨es', l', hes, hrun', hdone.files, ?_⟩
  rw [hh.wfname, ← hl.left.flatten]
  exact hdone.final

/-- Three bytes at `f`, in blocks of two. -/
def threeOffered : Offered := ⟨[0x66], [0x66], [1, 2, 3], 2⟩

theorem three_started : ∃ l₀ l : Net, threeOffered.Started l₀ ∧ (l.right.files threeOffered.fileid).isSome ∧
    ∃ es, Run (NetStep threeOffered) l₀ es l := by
  have hF : (senderOf [0x66] [1, 2, 3] 2).fs.disk [0x66] = some [1, 2, 3] := rfl
  obtain ⟨m, r, s₀, hello, hmake, hmrv, hmsg, hl, hr, hrv⟩ := offer_accepted hF (by decide) (by decide)
  obtain ⟨F, m', q, -, -, -, hm, hq, hqt, hqname, -⟩ := protoMaker_hello hmake hmrv
  subst hm
  cases hmsg
  obtain ⟨hnone, -, -, w, a, rcd, -, -, -, -, -, hfiles, -⟩ := hello_started hl.inv hq hqt hr hrv
  rw [hqname] at hnone hfiles
  refine ⟨⟨_, s₀, [hello], []⟩, _, ⟨⟨_, _, _, _, _, _, hmake, rfl, rfl, rfl⟩, rfl, hl, hnone⟩, ?_, _,
    Run.single (.right (fun x hx => ?_) (.hello hq hqt hr))⟩
  · show (r.st.files (nftpHash [0x66])).isSome = true
    rw [hfiles, show fileBname [0x66] = [0x66] from rfl, Function.update_self]
    rfl
  · cases hx
    exact List.mem_cons_self

theorem threeOffered_fits : threeOffered.Fits := by
  constructor
  · decide
  · decide

theorem network_safe_three : ∃ (l : Net) (c : Nctx), l.right.files threeOffered.fileid = some c ∧ c.nextid < 2 ∧
    l.right.fs.disk (l.right.part c.wfname) = some ([1, 2, 3].take (c.nextid * 2)) := by
  obtain ⟨l₀, l, h₀, hsome, es, hrun⟩ := three_started
  obtain ⟨c, hc⟩ := Option.isSome_iff_exists.1 hsome
  obtain ⟨hlt, hpart⟩ := (network_safe threeOffered_fits h₀ hrun).1 c hc
  exact ⟨l, c, hc, hlt, hpart⟩

theorem network_completes_three : ∃ (l : Net) (w : Bytes) (es : List (Turn Bytes Bytes)), es.length ≤ 6 ∧
    ∃ l₀, Run (NetStep threeOffered) l₀ es l ∧ l.right.fs.disk (l.right.final w) = some [1, 2, 3] := by
  obtain ⟨l₀, l, h₀, hsome, es, hrun⟩ := three_started
  obtain ⟨c, hc⟩ := Option.isSome_iff_exists.1 hsome
  obtain ⟨es', l', hes, hrun', -, hfinal⟩ := network_completes threeOffered_fits h₀ hrun hc
  exact ⟨l', c.wfname, es', hes, l, hrun', hfinal⟩

end Nftp
