import Nftp.Delivery
import Nftp.Sender
/-!
# Fileid — one file, one id

The id of a file is computed in six places: the HELLO case hashes the name as it came, all the others the last component
of a name or a path.  `one_fileid` says for which names they agree.
-/
namespace Nftp

open Lib

variable {h : Host} {s s' : State} {n p : Packet} {msg f : Bytes} {r : Ret} {k : UInt32}

/-- The file id a message carries, by its type. -/
def idBytes (m : Bytes) : Option UInt32 :=
  match MsgType.ofCode (m.getD 0 0) with
  | some .ack => some (be32 m 6)
  | some .file => some (be32 m 5)
  | some .fin => some (be32 m 5)
  | some .giveme => some (be32 m 5)
  | _ => none

/-- The message carries the file id, and whoever decodes it reads that. -/
structure IdIn (k : UInt32) (m : Bytes) : Prop where
  bytes : idBytes m = some k
  read : ∀ q, parse m = .ok (.ok, q) → q.fileid = k

/-- A message about a file being transferred. -/
def MsgType.AboutFile : MsgType → Prop
  | .hello => False
  | _ => True

/-- The id `k` of the file `f`, whose HELLO was accepted with `r`: the key of its context, the id in the ACK, the key that
`nftp_proto_recv_status` and `nftp_proto_recv_stop` look up, and the id in every message made for a path to an `f`. -/
structure SameId (s : State) (f : Bytes) (r : Ret) (k : UInt32) : Prop where
  stored : s.files k = none ∧ ∃ c, r.st.files k = some c ∧ c.fileid = k
  ack : ∃ m, r.rmsg = some m ∧ IdIn k m
  status : ∀ t, protoRecvStatus t f = match t.files k with
    | none => (.ht, none, -1)
    | some c => (.ok, some c.cap, c.nextid)
  stop : ∀ h t rv t', Live t → protoRecvStop h t f = .ok (rv, t') → t'.files = htErase t.files k
  made : ∀ h t path (type : MsgType) key i m l t', fileBname path = f → type.AboutFile →
    protoMaker h t (some path) (some type) key i = .ok ⟨.ok, some m, l, t'⟩ → IdIn k m

/-! ## The id in a message -/

theorem idBytes_wire {t : MsgType} (ht : MsgType.ofCode p.type = some t) (hc : p.Carries t) (hf : t.AboutFile)
    (slack : Bytes) : idBytes (p.wire t ++ slack) = some p.fileid := by
  have htype : (p.wire t ++ slack).getD 0 0 = p.type := rfl
  unfold idBytes
  rw [htype, ht]
  cases t with
  | hello => exact absurd hf id
  | ack =>
    rw [Packet.wire, body_ack]
    exact congrArg some (u32_put p.fileid)
  | file =>
    rw [Packet.wire, body_file hc.1]
    exact congrArg some (u32_put p.fileid)
  | fin =>
    rw [Packet.wire, body_fin, body_file hc.1]
    exact congrArg some (u32_put p.fileid)
  | giveme =>
    rw [Packet.wire, body_giveme]
    exact congrArg some (u32_put p.fileid)

/-- **The id in the bytes is the id decoded.** -/
theorem idIn_of_bytes {m : Bytes} (hb : idBytes m = some k) : IdIn k m := by
  refine ⟨hb, fun q hq => ?_⟩
  obtain ⟨t, ht, -, ⟨slack, hv⟩, hd⟩ := decode_ok hq
  by_cases hf : t.AboutFile
  · rw [hv, idBytes_wire ht hd.carries hf slack] at hb
    exact Option.some.inj hb
  · have htype : m.getD 0 0 = q.type := by rw [hv]; rfl
    unfold idBytes at hb
    rw [htype, ht] at hb
    cases t with
    | hello => cases hb
    | ack => exact absurd trivial hf
    | file => exact absurd trivial hf
    | fin => exact absurd trivial hf
    | giveme => exact absurd trivial hf

theorem idIn_wire {t : MsgType} (ht : MsgType.ofCode p.type = some t) (hc : p.Carries t) (hf : t.AboutFile) :
    IdIn p.fileid (p.wire t) := by
  have hb := idBytes_wire ht hc hf []
  rw [List.append_nil] at hb
  exact idIn_of_bytes hb

theorem idIn_ackOf (id : UInt8) (f : Bytes) : IdIn (nftpHash (fileBname f)) (ackOf id f) :=
  idIn_of_bytes (congrArg some (u32_put _))

/-! ## Making messages -/

theorem encodeReply_id {t : MsgType} {m : Bytes} {l : Int} (ht : MsgType.ofCode p.type = some t) (hc : p.Carries t)
    (hf : t.AboutFile) (hr : encodeReply s p = .ok ⟨.ok, some m, l, s'⟩) : IdIn p.fileid m := by
  rw [encodeReply_eq s ht hc] at hr
  cases hr
  exact idIn_wire ht hc hf

theorem makeFile_id {path m : Bytes} {t : MsgType} {i l : Int} (ht : t = .file ∨ t = .fin)
    (hr : makeFile h s path f t i = .ok ⟨.ok, some m, l, s'⟩) : IdIn (nftpHash f) m := by
  unfold makeFile at hr
  by_cases hi : 0 > i
  · rw [if_pos hi] at hr
    cases hr
  · rw [if_neg hi] at hr
    obtain ⟨⟨rv, v⟩, hread, hr⟩ := bind_eq_ok.1 hr
    by_cases hrv : rv = .ok
    · rw [hrv] at hread
      have hlt := fileReadblk_lt hread
      simp only [hrv, ne_eq, not_true_eq_false, if_false] at hr
      rcases ht with rfl | rfl
      · exact encodeReply_id (t := .file) rfl ⟨rfl, hlt⟩ trivial hr
      · exact encodeReply_id (t := .fin) rfl ⟨rfl, hlt⟩ trivial hr
    · simp only [ne_eq, hrv, not_false_eq_true, if_true, State.ret, Except.ok.injEq, Ret.mk.injEq] at hr
      exact hr.1.elim

/-- **Every message made about a file carries the hash of the last component of its path.** -/
theorem protoMaker_id {path m : Bytes} {type : MsgType} {key i l : Int} (hf : type.AboutFile)
    (hr : protoMaker h s (some path) (some type) key i = .ok ⟨.ok, some m, l, s'⟩) :
    IdIn (nftpHash (fileBname path)) m := by
  cases type with
  | hello => exact absurd hf id
  | ack =>
    simp only [protoMaker] at hr
    exact encodeReply_id (t := .ack) rfl trivial trivial hr
  | file =>
    simp only [protoMaker] at hr
    exact makeFile_id (.inl rfl) hr
  | fin =>
    simp only [protoMaker] at hr
    exact makeFile_id (.inr rfl) hr
  | giveme =>
    simp only [protoMaker] at hr
    split at hr
    · cases hr
    · exact encodeReply_id (t := .giveme) rfl trivial trivial hr

/-! ## Stopping -/

theorem recvStop_files (hi : Inv s) {rv : Rv} (hr : protoRecvStop h s f = .ok (rv, s')) :
    s'.files = htErase s.files (nftpHash (fileBname f)) := by
  rcases recvStop_cases hi.reg hr with ⟨hc, -, rfl⟩ | ⟨c, -, -, ⟨-, -, rfl⟩ | ⟨-, -, -, -, -, hs', -⟩⟩
  · rw [htErase, ← hc, Function.update_eq_self]
  · rfl
  · rw [congrArg State.files hs']

/-! ## The names whose ids agree -/

/-- The name is its own last component. -/
def OwnName (f : Bytes) : Prop := f = [slash] ∨ f ≠ [] ∧ slash ∉ f

instance (f : Bytes) : Decidable (OwnName f) := inferInstanceAs (Decidable (_ ∨ _))

theorem fileBname_own (hc : cstr f = f) (hf : OwnName f) : fileBname f = f := by
  rw [fileBname, hc]
  rcases hf with rfl | ⟨hne, hs⟩
  · rfl
  · exact basename_self hne hs

theorem SameId.key (hid : SameId s f r k) : k = nftpHash (fileBname f) := by
  obtain ⟨-, c, -, -⟩ := hid.stored
  -- a state that holds this context and no other
  have hone := hid.status { r.st with files := Function.update (fun _ => none) k (some c) }
  simp only [Function.update_self] at hone
  by_contra hne
  rw [protoRecvStatus] at hone
  simp only [Function.update_of_ne (Ne.symm hne)] at hone
  cases hone

/-- An accepted HELLO stores one new context, under the hash of the name as it came. -/
theorem hello_stored (hi : Inv s) (hp : parse msg = .ok (.ok, n)) (ht : MsgType.ofCode n.type = some .hello)
    (hr : receive h s msg = .ok r) (hrv : r.rv = .ok) : s.files (nftpHash n.name) = none ∧
      r.rmsg = some (ackOf n.id n.name) ∧ ∃ c, c.fileid = nftpHash n.name ∧
      r.st.files = Function.update s.files (nftpHash n.name) (some c) := by
  obtain ⟨hnone, hack, -, w, a, rcd, -, -, -, -, -, hfiles, -⟩ := hello_started hi hp ht hr hrv
  exact ⟨hnone, hack, helloCtx n a w, rfl, hfiles⟩

theorem SameId.stored_key {c : Nctx} (hid : SameId s f r k) {g : UInt32}
    (hfiles : r.st.files = Function.update s.files g (some c)) : k = g := by
  obtain ⟨hnone, c', hc', -⟩ := hid.stored
  by_contra hne
  rw [hfiles, Function.update_of_ne hne, hnone] at hc'
  cases hc'

/-- **The ids of a file whose HELLO is accepted agree exactly when its name is its own last component**, or has the hash of
it by chance. -/
theorem one_fileid (hl : Live s) (hp : parse msg = .ok (.ok, n)) (ht : MsgType.ofCode n.type = some .hello)
    (hr : receive h s msg = .ok r) (hrv : r.rv = .ok) :
    (∃ k, SameId s n.name r k) ↔ OwnName n.name ∨ nftpHash (fileBname n.name) = nftpHash n.name := by
  obtain ⟨hnone, hack, c, hid, hfiles⟩ := hello_stored hl.inv hp ht hr hrv
  have hcstr : cstr n.name = n.name := cstr_cstr _
  constructor
  · rintro ⟨k, hk⟩
    right
    rw [← hk.key, hk.stored_key hfiles]
  · intro hname
    have hhash : nftpHash (fileBname n.name) = nftpHash n.name := by
      rcases hname with hown | hhash
      · rw [fileBname_own hcstr hown]
      · exact hhash
    refine ⟨nftpHash n.name, ⟨hnone, c, by rw [hfiles, Function.update_self], hid⟩, ?_, ?_, ?_, ?_⟩
    · refine ⟨_, hack, ?_⟩
      rw [← hhash]
      exact idIn_ackOf n.id n.name
    · intro t
      cases hc : t.files (nftpHash n.name) <;> simp only [protoRecvStatus, hhash, hc]
    · intro h' t rv t' hlt hstop
      rw [← hhash]
      exact recvStop_files hlt.inv hstop
    · intro h' t path type key i m l t' hpath hf hmake
      rw [← hpath] at hhash ⊢
      exact protoMaker_id hf hmake

/-- The HELLO of `f`. -/
theorem one_fileid_plain : ∃ s r n k, Live s ∧ parse (helloBytes 0 1 [0x66] 0) = .ok (.ok, n) ∧
    receive .good s (helloBytes 0 1 [0x66] 0) = .ok r ∧ SameId s n.name r k := by
  obtain ⟨n, hp, ht, hname, -⟩ := parse_helloBytes 0 1 0 (show [0x66].length < 2 ^ 16 by decide) rfl
  obtain ⟨s, hl, r, hr, hrv⟩ := trace_live none 1 .empty []
    (fun s => ∃ r, receive .good s (helloBytes 0 1 [0x66] 0) = .ok r ∧ r.rv = .ok) (by decide +kernel)
  obtain ⟨k, hk⟩ := (one_fileid hl hp ht hr hrv).2 (.inl (by rw [hname]; decide))
  exact ⟨s, r, n, k, hl, hp, hr, hk⟩

/-- The HELLO of `a/b` is accepted and stored under the hash of `a/b`; all the rest uses the hash of `b`, and
`nftp_proto_recv_status` of `a/b` finds nothing. -/
theorem directory_splits : ∃ s r n, Live s ∧ parse (helloBytes 0 1 [0x61, slash, 0x62] 0) = .ok (.ok, n) ∧
    n.name = [0x61, slash, 0x62] ∧ receive .good s (helloBytes 0 1 [0x61, slash, 0x62] 0) = .ok r ∧ r.rv = .ok ∧
    (r.st.files (nftpHash [0x61, slash, 0x62])).isSome ∧ r.rmsg = some (ackOf 0 [0x62]) ∧
    protoRecvStatus r.st [0x61, slash, 0x62] = (.ht, none, -1) ∧ ¬ ∃ k, SameId s n.name r k := by
  obtain ⟨n, hp, ht, hname, -⟩ := parse_helloBytes 0 1 0 (show [0x61, slash, 0x62].length < 2 ^ 16 by decide) rfl
  obtain ⟨s, hl, r, hr, hrv, hsome, hack, hstatus⟩ := trace_live none 1 .empty []
    (fun s => ∃ r, receive .good s (helloBytes 0 1 [0x61, slash, 0x62] 0) = .ok r ∧ r.rv = .ok ∧
      (r.st.files (nftpHash [0x61, slash, 0x62])).isSome ∧ r.rmsg = some (ackOf 0 [0x62]) ∧
      protoRecvStatus r.st [0x61, slash, 0x62] = (.ht, none, -1)) (by decide +kernel)
  refine ⟨s, r, n, hl, hp, hname, hr, hrv, hsome, hack, hstatus, fun ⟨k, hk⟩ => ?_⟩
  obtain ⟨-, -, c, -, hfiles⟩ := hello_stored hl.inv hp ht hr hrv
  have hkey := hk.stored_key hfiles
  rw [hk.key, hname] at hkey
  exact absurd hkey (by decide +kernel)

end Nftp
