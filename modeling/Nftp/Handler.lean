import Nftp.CodecTrip
import Nftp.Registry
import Nftp.Store
/-!
# Handler — what one message can do

Each case of `nftp_proto_handler` taken apart once: the ways a call can return, and the state it leaves in each.
-/
namespace Nftp

def parse (msg : Bytes) : Except Fault (Rv × Packet) := decode Packet.alloc msg (sizeT (cInt msg.length))

variable {h : Host} {s : State} {n : Packet} {msg : Bytes} {r : Ret}

/-- What holds of all packets a message decodes to holds of the one it does decode to. -/
theorem parse_forall {P : Packet → Prop} (hp : parse msg = .ok (.ok, n)) :
    (∀ n', parse msg = .ok (.ok, n') → P n') ↔ P n := by
  refine ⟨fun h' => h' n hp, fun h' n' hn' => ?_⟩
  rw [hp] at hn'
  cases hn'
  exact h'

theorem receive_of_parse (h : Host) (s : State) (hp : parse msg = .ok (.ok, n)) : receive h s msg = dispatch h s n := by
  rw [receive, protoHandler, show decode Packet.alloc msg (sizeT (cInt msg.length)) = .ok (.ok, n) from hp]
  rfl

def Packet.IsBlock (n : Packet) : Prop := MsgType.ofCode n.type = some .file ∨ MsgType.ofCode n.type = some .fin

instance (n : Packet) : Decidable n.IsBlock := inferInstanceAs (Decidable (_ ∨ _))

theorem Packet.IsBlock.not_hello (hblock : n.IsBlock) : MsgType.ofCode n.type ≠ some .hello := by
  rcases hblock with h' | h' <;> rw [h'] <;> nofun

theorem receive_block (hp : parse msg = .ok (.ok, n)) (ht : n.IsBlock) : receive h s msg = handleFile h s n := by
  rw [receive_of_parse h s hp, dispatch]
  rcases ht with ht | ht <;> rw [ht]

/-- A call that returns decoded its message: it is refused for what is wrong with it, or dispatched. -/
theorem receive_cases (hr : receive h s msg = .ok r) :
    (∃ rv n, parse msg = .ok (rv, n) ∧ rv ≠ .ok ∧ r = ⟨rv, none, 0, s⟩) ∨
    ∃ n, parse msg = .ok (.ok, n) ∧ dispatch h s n = .ok r := by
  obtain ⟨⟨rv, n⟩, hp, hr⟩ := bind_eq_ok.1 hr
  by_cases hrv : rv = .ok
  · subst hrv
    exact .inr ⟨n, hp, hr⟩
  · simp only [if_pos hrv, State.ret, Except.ok.injEq] at hr
    exact .inl ⟨rv, n, hp, hrv, hr.symm⟩

/-- A message longer than an `int` holds is refused. -/
theorem receive_long (h : Host) (s : State) (hlo : 2 ^ 31 ≤ msg.length) (hhi : msg.length < 2 ^ 32) :
    receive h s msg = .ok ⟨.stream, none, 0, s⟩ := by
  have hsize : sizeT (cInt msg.length) = 2 ^ 64 + msg.length - 2 ^ 32 := by
    unfold sizeT cInt
    rw [Int.bmod_def]
    omega
  have hplen := (be32 msg 1).toNat_lt
  have hdec : decode Packet.alloc msg (sizeT (cInt msg.length)) =
      .ok (.stream, { Packet.alloc with type := msg.getD 0 0, len := be32 msg 1 }) := by
    rw [hsize, decode, if_neg (by omega), if_neg (by omega), byteAt_eq, if_pos (by omega), bind_ok, getU32_eq,
      if_pos (by omega), bind_ok]
    exact if_pos (by omega)
  rw [receive, protoHandler, hdec]
  rfl

/-- The type of a packet is the first byte of its message. -/
theorem parse_type (hp : parse msg = .ok (.ok, n)) : n.type = msg.getD 0 0 := by
  obtain ⟨t, -, -, ⟨slack, hv⟩, -⟩ := decode_ok hp
  rw [hv]
  rfl

theorem parse_wire {p : Packet} {t : MsgType} (hp : p.Sized t) (hlt : p.size t < 2 ^ 31) :
    ∃ q, parse (p.wire t) = .ok (.ok, q) ∧ q.type = p.type ∧ SameFields p q t := by
  obtain ⟨q, hq, htype, -, hsame⟩ := decode_wire Packet.alloc hp
  refine ⟨q, ?_, htype, hsame⟩
  rw [parse, sizeT_cInt (by rw [wire_length hp.carries]; exact hlt)]
  exact hq

/-- A HELLO names no file id: the packet keeps the 0 it was allocated with. -/
theorem parse_hello (hp : parse msg = .ok (.ok, n)) (ht : MsgType.ofCode n.type = some .hello) :
    n.fileid = 0 ∧ ∃ f, n.fname = some f ∧ f.length = n.namelen.toNat := by
  obtain ⟨t, ht', -, -, hd⟩ := decode_ok hp
  rw [ht] at ht'
  cases ht'
  obtain ⟨f, hf⟩ := Option.isSome_iff_exists.1 (hd.fname rfl)
  have hc : (n.fname.getD []).length = n.namelen.toNat := hd.carries
  rw [hf] at hc
  exact ⟨hd.fileid rfl, f, hf, hc⟩

theorem parse_file (hp : parse msg = .ok (.ok, n))
    (ht : MsgType.ofCode n.type = some .file ∨ MsgType.ofCode n.type = some .fin) :
    ∃ b, n.content = some b ∧ b.length = n.ctlen := by
  obtain ⟨t, ht', -, -, hd⟩ := decode_ok hp
  have hfile : t = .file ∨ t = .fin := by
    rcases ht with ht | ht <;> rw [ht] at ht' <;> cases ht'
    · exact .inl rfl
    · exact .inr rfl
  obtain ⟨b, hb⟩ := Option.isSome_iff_exists.1 (hd.content hfile).1
  refine ⟨b, hb, ?_⟩
  rcases hfile with rfl | rfl
  · have hc : (n.content.getD []).length = n.ctlen := hd.carries.1
    rwa [hb] at hc
  · have hc : (n.content.getD []).length = n.ctlen := hd.carries.1
    rwa [hb] at hc

/-! ## HELLO -/

def Packet.name (n : Packet) : Bytes := cstr (n.fname.getD [])

/-- The bytes of the ACK that answers a HELLO. -/
def ackOf (id : UInt8) (fname : Bytes) : Bytes :=
  [2, 0, 0, 0, 10, id] ++ putU32 (nftpHash (fileBname fname))

theorem encodeReply_eq (s : State) {p : Packet} {t : MsgType} (ht : MsgType.ofCode p.type = some t) (hc : p.Carries t) :
    encodeReply s p = .ok ⟨.ok, some (p.wire t), cInt (p.size t), s⟩ := by
  rw [encodeReply, encode_eq_wire p ht hc, ← wire_length hc]
  rfl

theorem protoMaker_ack (h : Host) (s : State) (id : UInt8) (fname : Bytes) :
    protoMaker h s (some fname) (some .ack) id.toNat 0 = .ok ⟨.ok, some (ackOf id fname), 10, s⟩ := by
  have hid : UInt8.ofNat ((id.toNat : Int) % 256).toNat = id := by
    have := id.toNat_lt
    rw [show ((id.toNat : Int) % 256).toNat = id.toNat by omega]
    exact UInt8.ofNat_toNat
  have hlen : putU32 (6 + 4) = [0, 0, 0, 10] := by decide
  simp only [protoMaker, hid]
  rw [encodeReply_eq s (t := .ack) rfl trivial, Packet.wire, body_ack]
  simp only [Packet.size, cInt_of_lt (by decide : 10 < 2 ^ 31), hlen]
  rfl

/-- What binding a record does: nothing, or a record pushed under a fresh address. -/
structure Bound (s : State) (fname : Bytes) (a : Addr) (s₁ : State) : Prop where
  reg : RegOk s₁
  keeps : Keeps s s₁
  eq : s₁ = s.withReg s₁
  heap : ∀ b r, s.heap b = some r → s₁.heap b = some r
  lt_brk : a < s.brk
  record : ∃ r, s.heap a = some r ∧ (r.fname = fname ∨ r.fname = star)

theorem bindFcb_bound (hreg : RegOk s) {fname : Bytes} (hc : cstr fname = fname) :
    ∃ a s₁, bindFcb s fname = .ok (some a, s₁) ∧ Bound s fname a s₁ := by
  obtain ⟨a, r, s₁, hrun, hr, hmem, hcase⟩ := bindFcb_spec hreg hc
  have hlt := hreg.lt_brk a hmem
  refine ⟨a, s₁, hrun, ?_⟩
  rcases hcase with ⟨hn, rfl⟩ | ⟨hn, -, ⟨-, rfl⟩ | ⟨-, reg, hok, rfl⟩⟩
  · exact ⟨hreg, .refl _, rfl, fun _ _ hb => hb, hlt, r, hr, .inl hn⟩
  · exact ⟨hreg, .refl _, rfl, fun _ _ hb => hb, hlt, r, hr, .inr hn⟩
  · refine ⟨hok, keeps_push, rfl, fun b rb hb => ?_, hlt, r, hr, .inr hn⟩
    have hb' : b < s.brk := hreg.lt_brk b ((hreg.mem_iff b).2 (by rw [hb]; rfl))
    show Function.update s.heap s.brk _ b = some rb
    rw [Function.update_of_ne (Nat.ne_of_lt hb')]
    exact hb

def helloCtx (n : Packet) (a : Addr) (wfname : Bytes) : Nctx :=
  { nctxAlloc n.blocks.toNat (nftpHash n.name) n.hashcode with fcb := some a, wfname := wfname }

/-- Its table is empty. -/
theorem helloCtx_empty {a : Addr} {w : Bytes} {k : Nat} {e : Buf} (he : (helloCtx n a w).entries[k]? = some e) :
    e = ⟨none, 0⟩ := List.eq_of_mem_replicate (List.mem_of_getElem? he)

theorem helloCtx_wf (n : Packet) (a : Addr) (w : Bytes) : (helloCtx n a w).Wf := by
  refine ⟨by simp [helloCtx, nctxAlloc], fun e he b hb => ?_⟩
  obtain ⟨k, hk⟩ := List.getElem?_of_mem he
  rw [helloCtx_empty hk] at hb
  cases hb

def Fs.created (fs : Fs) (path : Path) : Fs :=
  { disk := Function.update fs.disk path (some []), ops := fs.ops ++ [.write path] }

theorem created_self (fs : Fs) (path : Path) : (fs.created path).disk path = some [] := Function.update_self ..

theorem created_ne (fs : Fs) {path q : Path} (hq : q ≠ path) : (fs.created path).disk q = fs.disk q :=
  Function.update_of_ne hq _ _

theorem fileWrite_empty (ans : WriteAns) (fs : Fs) (path : Path) :
    fileWrite ans fs path [] 0 = if ans = .noOpen then (.file, fs) else (.ok, fs.created path) := by
  have hcount : ans.counted 0 = 0 := by cases ans <;> simp [WriteAns.counted]
  by_cases ho : ans = .noOpen
  · rw [if_pos ho, fileWrite, if_pos ho]
  · rw [if_neg ho, fileWrite, if_neg ho, hcount, List.take_nil]
    rfl

/-- **The ways a HELLO is answered**: refused because file id 0 is being received; or, once a record is bound and a name
picked, refused because the part file cannot be created; refused because the key is taken, the context under it being
replaced; or accepted with an ACK. -/
theorem handleHello_cases (hreg : RegOk s) (hr : handleHello h s n = .ok r) :
    ((s.files n.fileid).isSome ∧ r = ⟨.ht, none, 0, s⟩) ∨
    (s.files n.fileid = none ∧ ∃ a s₁ w path, bindFcb s n.name = .ok (some a, s₁) ∧ Bound s n.name a s₁ ∧
      pickName s n.name = .ok (some w) ∧ partPath s.recvdir w = .ok path ∧
      ((h.write = .noOpen ∧ r = ⟨.file, none, 0, s₁⟩) ∨
       (h.write ≠ .noOpen ∧ ∃ rv rmsg rlen,
          ((s.files (nftpHash n.name)).isSome ∧ rv = .ht ∧ rmsg = none ∧ rlen = 0 ∨
           s.files (nftpHash n.name) = none ∧ rv = .ok ∧ rmsg = some (ackOf n.id n.name) ∧ rlen = 10) ∧
          r = ⟨rv, rmsg, rlen, { s₁ with
            files := Function.update s.files (nftpHash n.name) (some (helloCtx n a w)),
            fs := s.fs.created path }⟩))) := by
  unfold handleHello at hr
  by_cases h0 : (s.files n.fileid).isSome
  · left
    simp only [if_pos h0, State.ret, Except.ok.injEq] at hr
    exact ⟨h0, hr.symm⟩
  right
  obtain ⟨a, s₁, hbind, hb⟩ := bindFcb_bound hreg (cstr_cstr (n.fname.getD []))
  simp only [if_neg h0, hbind, bind_ok] at hr
  obtain ⟨wfname, hpick, hr⟩ := bind_eq_ok.1 hr
  have hs₁ := hb.eq
  have hpick' : pickName s n.name = .ok wfname := by rw [← hpick, hs₁]; rfl
  cases wfname with
  | none => cases hr
  | some w =>
    obtain ⟨path, hpath, hr⟩ := bind_eq_ok.1 hr
    have hpath' : partPath s.recvdir w = .ok path := by rw [← hpath, hs₁]; rfl
    have hfs : s₁.fs = s.fs := by rw [hs₁]; rfl
    have hfiles : s₁.files = s.files := by rw [hs₁]; rfl
    refine ⟨by simpa using h0, a, s₁, w, path, hbind, hb, hpick', hpath', ?_⟩
    rw [fileWrite_empty, hfs] at hr
    by_cases ho : h.write = .noOpen
    · left
      simp only [if_pos ho, ne_eq, reduceCtorEq, not_false_eq_true, if_true, State.ret, Except.ok.injEq] at hr
      exact ⟨ho, by rw [← hr, ← hfs]⟩
    · refine .inr ⟨ho, ?_⟩
      simp only [if_neg ho, ne_eq, not_true_eq_false, if_false, htInsert, hfiles] at hr
      have hkey : (nctxAlloc n.blocks.toNat (nftpHash (cstr (n.fname.getD []))) n.hashcode).fileid = nftpHash n.name := rfl
      rw [hkey] at hr
      cases hk : s.files (nftpHash n.name) with
      | some old =>
        rw [hk] at hr
        refine ⟨.ht, none, 0, .inl ⟨rfl, rfl, rfl, rfl⟩, ?_⟩
        simp only [Option.isSome_some, if_true, one_ne_zero, not_false_eq_true, State.ret, Except.ok.injEq] at hr
        exact hr.symm
      | none =>
        rw [hk] at hr
        refine ⟨.ok, some (ackOf n.id n.name), 10, .inr ⟨rfl, rfl, rfl, rfl⟩, ?_⟩
        simp only [Option.isSome_none, Bool.false_eq_true, if_false, not_true_eq_false] at hr
        rw [protoMaker_ack] at hr
        simp only [bind_ok, pure_ok, Except.ok.injEq] at hr
        exact hr.symm

/-! ## FILE and END -/

/-- **The ways a FILE or END is answered.** -/
theorem handleFile_cases (hr : handleFile h s n = .ok r) :
    (s.files n.fileid = none ∧ r = ⟨.ht, none, 0, s⟩) ∨
    ∃ c path rv c' fs', s.files n.fileid = some c ∧ partPath s.recvdir c.wfname = .ok path ∧
      storeBlock h path c s.fs n = .ok (rv, c', fs') ∧
      ((rv ≠ .ok ∨ c'.nextid ≠ c'.cap) ∧
          r = ⟨rv, none, 0, { s with files := Function.update s.files n.fileid (some c'), fs := fs' }⟩ ∨
       rv = .ok ∧ c'.nextid = c'.cap ∧
          finish h { s with files := Function.update s.files n.fileid (some c'), fs := fs' } c' path = .ok r) := by
  unfold handleFile at hr
  cases hc : s.files n.fileid with
  | none =>
    left
    simp only [hc, State.ret, Except.ok.injEq] at hr
    exact ⟨rfl, hr.symm⟩
  | some c =>
    right
    simp only [hc] at hr
    obtain ⟨path, hpath, hr⟩ := bind_eq_ok.1 hr
    obtain ⟨⟨rv, c', fs'⟩, hstore, hr⟩ := bind_eq_ok.1 hr
    refine ⟨c, path, rv, c', fs', rfl, hpath, hstore, ?_⟩
    by_cases hrv : rv = .ok
    · subst hrv
      simp only [ne_eq, not_true_eq_false, if_false] at hr
      by_cases hn : c'.nextid = c'.cap
      · rw [if_pos hn] at hr
        exact .inr ⟨rfl, hn, hr⟩
      · simp only [if_neg hn, State.ret, Except.ok.injEq] at hr
        exact .inl ⟨.inr hn, hr.symm⟩
    · simp only [ne_eq, hrv, not_false_eq_true, if_true, State.ret, Except.ok.injEq] at hr
      exact .inl ⟨.inl hrv, hr.symm⟩

def Fs.renamed (fs : Fs) (src dst : Path) (content : Bytes) : Fs :=
  { disk := Function.update (Function.update fs.disk src none) dst (some content), ops := fs.ops ++ [.rename src dst] }

theorem renamed_dst (fs : Fs) (src dst : Path) (content : Bytes) : (fs.renamed src dst content).disk dst = some content :=
  Function.update_self ..

theorem renamed_src (fs : Fs) {src dst : Path} (hne : src ≠ dst) (content : Bytes) :
    (fs.renamed src dst content).disk src = none := by
  show Function.update (Function.update fs.disk src none) dst _ src = none
  rw [Function.update_of_ne hne, Function.update_self]

theorem renamed_ne (fs : Fs) {src dst q : Path} (hs : q ≠ src) (hd : q ≠ dst) (content : Bytes) :
    (fs.renamed src dst content).disk q = fs.disk q := by
  show Function.update (Function.update fs.disk src none) dst _ q = _
  rw [Function.update_of_ne hd, Function.update_of_ne hs]

theorem fileRename_eq (ok : Bool) (fs : Fs) (src dst : Path) :
    fileRename ok fs src dst = match fs.disk src with
      | none => (.filepath, fs)
      | some c => if ok = false then (.sys, fs) else (.ok, fs.renamed src dst c) := by
  unfold fileRename
  cases fs.disk src <;> rfl

theorem fileHash_eq (ans : ReadAns) {d : Disk} {path : Path} {c : Bytes} (hd : d path = some c) :
    fileHash ans d path = if ans = .noOpen then (.file, 0) else if ans = .short ∧ 0 < c.length then (.filerd, 0)
      else (.ok, nftpHash c) := by
  simp only [fileHash, hd]

/-- Reading the contents back, they pass the check. -/
def ReadAns.Passes (ans : ReadAns) (content : Bytes) (hashcode : UInt32) : Prop :=
  ans ≠ .noOpen ∧ ¬ (ans = .short ∧ 0 < content.length) ∧ nftpHash content = hashcode

instance (ans : ReadAns) (content : Bytes) (hashcode : UInt32) : Decidable (ans.Passes content hashcode) :=
  inferInstanceAs (Decidable (_ ∧ _ ∧ _))

/-- **The ways a transfer ends**: the rename fails; the check of the published file does not pass; or the callback runs
and the context goes. -/
theorem finish_cases {c : Nctx} {path : Path} (hr : finish h s c path = .ok r) :
    ∃ path2, fileFullpath s.recvdir c.wfname = .ok path2 ∧
      ((s.fs.disk path = none ∨ h.rename = false) ∧ r.rv ≠ .ok ∧ r.rmsg = none ∧ r.st = s ∨
       ∃ content, s.fs.disk path = some content ∧ h.rename = true ∧ r.rmsg = some c.wfname ∧
          r.rlen = cInt c.wfname.length ∧
        (¬ h.hash.Passes content c.hashcode ∧ r.rv ≠ .ok ∧ r.st = { s with fs := s.fs.renamed path path2 content } ∨
         h.hash.Passes content c.hashcode ∧ r.rv = .ok ∧
          ∃ s₁, runCb { s with fs := s.fs.renamed path path2 content } c = .ok s₁ ∧
            r.st = { s₁ with files := htErase s₁.files c.fileid })) := by
  unfold finish at hr
  obtain ⟨path2, hpath2, hr⟩ := bind_eq_ok.1 hr
  refine ⟨path2, hpath2, ?_⟩
  rw [fileRename_eq] at hr
  cases hd : s.fs.disk path with
  | none =>
    simp only [hd, ne_eq, reduceCtorEq, not_false_eq_true, if_true, State.ret, Except.ok.injEq] at hr
    subst hr
    exact .inl ⟨.inl rfl, nofun, rfl, rfl⟩
  | some content =>
    cases hren : h.rename with
    | false =>
      simp only [hd, hren, ne_eq, reduceCtorEq, not_false_eq_true, if_true, State.ret, Except.ok.injEq] at hr
      subst hr
      exact .inl ⟨.inr rfl, nofun, rfl, rfl⟩
    | true =>
      right
      simp only [hd, hren, Bool.true_eq_false, if_false, ne_eq, not_true_eq_false] at hr
      have hd2 : (s.fs.renamed path path2 content).disk path2 = some content := Function.update_self ..
      rw [fileHash_eq h.hash hd2] at hr
      by_cases ho : h.hash = .noOpen
      · simp only [if_pos ho, reduceCtorEq, not_false_eq_true, if_true, Except.ok.injEq] at hr
        subst hr
        exact ⟨content, rfl, rfl, rfl, by dsimp only, .inl ⟨fun hp => hp.1 ho, nofun, rfl⟩⟩
      by_cases hs : h.hash = .short ∧ 0 < content.length
      · simp only [if_neg ho, if_pos hs, reduceCtorEq, not_false_eq_true, if_true, Except.ok.injEq] at hr
        subst hr
        exact ⟨content, rfl, rfl, rfl, by dsimp only, .inl ⟨fun hp => hp.2.1 hs, nofun, rfl⟩⟩
      simp only [if_neg ho, if_neg hs, not_true_eq_false, if_false] at hr
      by_cases hh : c.hashcode = nftpHash content
      · simp only [hh, not_true_eq_false, if_false] at hr
        obtain ⟨s₁, hrun, hr⟩ := bind_eq_ok.1 hr
        cases hr
        exact ⟨content, rfl, rfl, rfl, by dsimp only, .inr ⟨⟨ho, hs, hh.symm⟩, rfl, s₁, hrun, rfl⟩⟩
      · simp only [hh, not_false_eq_true, if_true, Except.ok.injEq] at hr
        subst hr
        exact ⟨content, rfl, rfl, rfl, by dsimp only, .inl ⟨fun hp => hh hp.2.2.symm, nofun, rfl⟩⟩

end Nftp
