import Nftp.Codec
/-!
# CodecTrip — decoding and encoding undo each other

An accepted buffer starts with the bytes of the packet decoded (`decode_ok`); the bytes of a packet decode to it
(`decode_wire`).  The decoder also accepts bytes behind the packet's own, which is where `encode` after `decode` fails.
-/
namespace Nftp

/-! ## The fields of each type, written out -/

theorem body_hello {p : Packet} (hc : p.Carries .hello) : p.body .hello =
    p.id :: (putU16 p.blocks ++ (putU16 p.namelen ++ (p.fname.getD [] ++ putU32 p.hashcode))) := by
  unfold Packet.Carries at hc
  cases hn : p.fname with
  | none => simp [Packet.body, Packet.fields, Packet.fieldBytes, Packet.deref, hn]
  | some f =>
    simp only [hn, Option.getD_some] at hc
    simp [Packet.body, Packet.fields, Packet.fieldBytes, Packet.deref, hn, ← hc]

theorem body_ack (p : Packet) : p.body .ack = p.id :: putU32 p.fileid := by
  simp [Packet.body, Packet.fields, Packet.fieldBytes, Packet.deref]

theorem body_file {p : Packet} (hc : (p.content.getD []).length = p.ctlen) : p.body .file =
    putU32 p.fileid ++ (putU16 p.blockseq ++ (putU32 (UInt32.ofNat p.ctlen) ++ p.content.getD [])) := by
  cases hn : p.content with
  | none => simp [Packet.body, Packet.fields, Packet.fieldBytes, hn]
  | some c =>
    simp only [hn, Option.getD_some] at hc
    simp [Packet.body, Packet.fields, Packet.fieldBytes, Packet.deref, hn, ← hc]

theorem body_fin (p : Packet) : p.body .fin = p.body .file := rfl

theorem body_giveme (p : Packet) : p.body .giveme = putU32 p.fileid ++ putU16 p.blockseq := by
  simp [Packet.body, Packet.fields, Packet.fieldBytes]

def Packet.size (p : Packet) : MsgType → Nat
  | .hello => 10 + p.namelen.toNat + 4
  | .ack => 10
  | .file | .fin => 15 + p.ctlen
  | .giveme => 11

theorem wire_length {p : Packet} {t : MsgType} (hc : p.Carries t) : (p.wire t).length = p.size t := by
  rw [Packet.wire, List.length_cons, List.length_append, putU32_length]
  cases t with
  | hello =>
    have hn : (p.fname.getD []).length = p.namelen.toNat := hc
    simp only [body_hello hc, List.length_cons, List.length_append, putU16_length, putU32_length, hn, Packet.size]
    omega
  | ack => simp [body_ack, Packet.size]
  | file =>
    have hn : (p.content.getD []).length = p.ctlen := hc.1
    simp only [body_file hn, List.length_append, putU16_length, putU32_length, hn, Packet.size]
    omega
  | fin =>
    have hn : (p.content.getD []).length = p.ctlen := hc.1
    simp only [body_fin, body_file hn, List.length_append, putU16_length, putU32_length, hn, Packet.size]
    omega
  | giveme => simp [body_giveme, Packet.size]

/-! ## What an accepted buffer holds -/

/-- `q` is `p` with the fields of a packet of type `t` read from `v`. -/
structure Decoded (p q : Packet) (t : MsgType) (v : Bytes) : Prop where
  type : q.type = p.type
  len : q.len = p.len
  carries : q.Carries t
  /-- the fields' own bytes come first; what follows them no field accounts for -/
  body : ∃ slack, v.drop 5 = q.body t ++ slack
  /-- a HELLO names no file id, and the packet keeps the one it had -/
  fileid : t = .hello → q.fileid = p.fileid
  fname : t = .hello → q.fname.isSome
  content : t = .file ∨ t = .fin → q.content.isSome ∧ q.ctlen < 2 ^ 32

theorem decodeHello_ok {p q : Packet} {v : Bytes} (h : decodeHello p v = .ok (.ok, q)) : Decoded p q .hello v := by
  obtain ⟨id, hid, h⟩ := bind_eq_ok.1 h
  obtain ⟨blocks, hblocks, h⟩ := bind_eq_ok.1 h
  obtain ⟨namelen, hnamelen, h⟩ := bind_eq_ok.1 h
  obtain ⟨fname, hfname, h⟩ := bind_eq_ok.1 h
  simp only at h
  split at h
  · cases h
  obtain ⟨content, hcontent, h⟩ := bind_eq_ok.1 h
  obtain ⟨hash, hhash, h⟩ := bind_eq_ok.1 h
  cases h
  obtain ⟨hn, hnl⟩ := drop_of_slice hfname
  have hc := drop_of_getU32 hhash
  rw [List.drop_zero] at hc
  refine ⟨rfl, rfl, hnl, ?_, fun _ => rfl, fun _ => rfl, by simp⟩
  rw [body_hello, drop_of_byteAt hid, drop_of_getU16 hblocks, drop_of_getU16 hnamelen, hn,
    (drop_of_slice hcontent).1, hc]
  · exact ⟨content.drop 4 ++ v.drop _, by simp only [List.cons_append, List.append_assoc, Option.getD_some]; rfl⟩
  · exact hnl

theorem decodeAck_ok {p q : Packet} {v : Bytes} (h : decodeAck p v = .ok (.ok, q)) : Decoded p q .ack v := by
  obtain ⟨id, hid, h⟩ := bind_eq_ok.1 h
  obtain ⟨fileid, hfileid, h⟩ := bind_eq_ok.1 h
  cases h
  refine ⟨rfl, rfl, trivial, ?_, nofun, nofun, by simp⟩
  rw [body_ack, drop_of_byteAt hid, drop_of_getU32 hfileid]
  exact ⟨_, rfl⟩

theorem decodeFile_ok {p q : Packet} {v : Bytes} {t : MsgType} (ht : t = .file ∨ t = .fin)
    (h : decodeFile p v = .ok (.ok, q)) : Decoded p q t v := by
  obtain ⟨fileid, hfileid, h⟩ := bind_eq_ok.1 h
  obtain ⟨blockseq, hblockseq, h⟩ := bind_eq_ok.1 h
  obtain ⟨ctlen, hctlen, h⟩ := bind_eq_ok.1 h
  obtain ⟨content, hcontent, h⟩ := bind_eq_ok.1 h
  cases h
  obtain ⟨hn, hnl⟩ := drop_of_slice hcontent
  have hlt := ctlen.toNat_lt
  refine ⟨rfl, rfl, ?_, ?_, ?_, ?_, fun _ => ⟨rfl, hlt⟩⟩
  · rcases ht with rfl | rfl <;> exact ⟨hnl, by simp only; omega⟩
  · have hb := fun c => body_file (p := { p with fileid := fileid, blockseq := blockseq, ctlen := ctlen.toNat, content := some content }) c
    have he : v.drop 5 = putU32 fileid ++ (putU16 blockseq ++ (putU32 (UInt32.ofNat ctlen.toNat) ++ content)) ++
        v.drop (15 + ctlen.toNat) := by
      rw [drop_of_getU32 hfileid, drop_of_getU16 hblockseq, drop_of_getU32 hctlen, hn, UInt32.ofNat_toNat]
      simp only [List.append_assoc]
    rcases ht with rfl | rfl
    · exact ⟨_, by rw [hb hnl]; exact he⟩
    · exact ⟨_, by rw [body_fin, hb hnl]; exact he⟩
  · rcases ht with rfl | rfl <;> (intro h; cases h)
  · rcases ht with rfl | rfl <;> (intro h; cases h)

theorem decodeGiveme_ok {p q : Packet} {v : Bytes} (h : decodeGiveme p v = .ok (.ok, q)) : Decoded p q .giveme v := by
  obtain ⟨fileid, hfileid, h⟩ := bind_eq_ok.1 h
  obtain ⟨blockseq, hblockseq, h⟩ := bind_eq_ok.1 h
  cases h
  refine ⟨rfl, rfl, trivial, ?_, nofun, nofun, by simp⟩
  rw [body_giveme, drop_of_getU32 hfileid, drop_of_getU16 hblockseq]
  exact ⟨_, by rw [List.append_assoc]⟩

/-- **What an accepted buffer holds**: the bytes of the packet decoded from it, then bytes no field accounts for. -/
theorem decode_ok {p q : Packet} {v : Bytes} {len : Nat} (h : decode p v len = .ok (.ok, q)) :
    ∃ t, MsgType.ofCode q.type = some t ∧ len = q.len.toNat ∧ (∃ slack, v = q.wire t ++ slack) ∧
      Decoded { p with type := q.type, len := q.len } q t v := by
  unfold decode at h
  split at h
  · cases h
  split at h
  · cases h
  obtain ⟨type, htype, h⟩ := bind_eq_ok.1 h
  obtain ⟨plen, hplen, h⟩ := bind_eq_ok.1 h
  have hhead := drop_of_byteAt htype
  rw [drop_of_getU32 hplen, List.drop_zero] at hhead
  simp only at h
  split at h
  · cases h
  rename_i hlen
  simp only [ne_eq, Decidable.not_not] at hlen
  have key : ∀ t, MsgType.ofCode type = some t → Decoded { p with type := type, len := plen } q t v →
      ∃ t, MsgType.ofCode q.type = some t ∧ len = q.len.toNat ∧ (∃ slack, v = q.wire t ++ slack) ∧
        Decoded { p with type := q.type, len := q.len } q t v := by
    intro t ht hd
    have e1 : type = q.type := hd.type.symm
    have e2 : plen = q.len := hd.len.symm
    subst e1 e2
    obtain ⟨slack, hs⟩ := hd.body
    refine ⟨t, ht, hlen, ⟨slack, ?_⟩, hd⟩
    rw [Packet.wire, List.cons_append, List.append_assoc, ← hs]
    exact hhead
  split at h
  · exact key _ ‹_› (decodeHello_ok h)
  · exact key _ ‹_› (decodeAck_ok h)
  · exact key _ ‹_› (decodeFile_ok (.inl rfl) h)
  · exact key _ ‹_› (decodeFile_ok (.inr rfl) h)
  · exact key _ ‹_› (decodeGiveme_ok h)
  · cases h

/-! ## Decoding a packet's bytes -/

def SameFields (p q : Packet) : MsgType → Prop
  | .hello => q.id = p.id ∧ q.blocks = p.blocks ∧ q.namelen = p.namelen ∧ q.fname = p.fname ∧ q.hashcode = p.hashcode
  | .ack => q.id = p.id ∧ q.fileid = p.fileid
  | .file | .fin => q.fileid = p.fileid ∧ q.blockseq = p.blockseq ∧ q.ctlen = p.ctlen ∧ q.content = p.content
  | .giveme => q.fileid = p.fileid ∧ q.blockseq = p.blockseq

/-- `p.len` is the size of the packet's type, and the name and the content have the lengths given. -/
structure Packet.Sized (p : Packet) (t : MsgType) : Prop where
  type : MsgType.ofCode p.type = some t
  len : p.len.toNat = p.size t
  fname : t = .hello → ∃ f, p.fname = some f ∧ f.length = p.namelen.toNat
  content : t = .file ∨ t = .fin → ∃ c, p.content = some c ∧ c.length = p.ctlen

theorem Packet.Sized.ctlen_lt {p : Packet} {t : MsgType} (h : p.Sized t) (ht : t = .file ∨ t = .fin) :
    p.ctlen < 2 ^ 32 := by
  have hl := h.len
  have := p.len.toNat_lt
  rcases ht with rfl | rfl <;> simp only [Packet.size] at hl <;> omega

theorem Packet.Sized.carries {p : Packet} {t : MsgType} (h : p.Sized t) : p.Carries t := by
  cases t with
  | hello => obtain ⟨f, hf, hl⟩ := h.fname rfl; simpa [Packet.Carries, hf] using hl
  | ack => trivial
  | file =>
    obtain ⟨c, hc, hl⟩ := h.content (.inl rfl)
    have hlt := h.ctlen_lt (.inl rfl)
    exact ⟨by rw [hc]; exact hl, by omega⟩
  | fin =>
    obtain ⟨c, hc, hl⟩ := h.content (.inr rfl)
    have hlt := h.ctlen_lt (.inr rfl)
    exact ⟨by rw [hc]; exact hl, by omega⟩
  | giveme => trivial

theorem decodeHello_body {p : Packet} (q : Packet) (h : p.Sized .hello) (hq : q.len = p.len) (x : UInt8) (l : UInt32) :
    ∃ q', decodeHello q (x :: (putU32 l ++ p.body .hello)) = .ok (.ok, q') ∧ SameFields p q' .hello := by
  obtain ⟨f, hf, hl⟩ := h.fname rfl
  have hlen : q.len.toNat = 10 + f.length + 4 := by rw [hq, hl]; exact h.len
  have h4 : q.len.toNat - (10 + f.length) = (putU32 p.hashcode).length := by rw [hlen, putU32_length]; omega
  rw [body_hello h.carries, hf, Option.getD_some]
  refine ⟨{ q with
    id := p.id, blocks := p.blocks, namelen := p.namelen, fname := some f, ctlen := 4,
    content := some (putU32 p.hashcode), hashcode := p.hashcode }, ?_, ?_⟩
  · simp only [putU32, putU16, List.cons_append, List.nil_append, decodeHello, byteAt_succ, byteAt_zero, bind_ok,
      getU16_succ, getU16_zero, slice_succ, u16_put]
    rw [← hl, slice_append_left, bind_ok, if_neg (by omega), Nat.add_comm 10]
    simp only [slice_succ]
    rw [slice_append_right, Nat.add_comm f.length, h4]
    change (slice (putU32 p.hashcode) 0 (putU32 p.hashcode).length >>= _) = _
    rw [slice_self]
    simp only [bind_ok, putU32, getU32_zero, u32_put, List.length_cons, List.length_nil, pure_ok]
  · exact ⟨rfl, rfl, rfl, hf.symm, rfl⟩

theorem decodeAck_body (p q : Packet) (x : UInt8) (l : UInt32) :
    ∃ q', decodeAck q (x :: (putU32 l ++ p.body .ack)) = .ok (.ok, q') ∧ SameFields p q' .ack := by
  rw [body_ack]
  refine ⟨{ q with id := p.id, fileid := p.fileid }, ?_, ?_⟩
  · simp only [putU32, List.cons_append, List.nil_append, decodeAck, byteAt_succ, byteAt_zero, bind_ok, getU32_succ,
      getU32_zero, u32_put, pure_ok]
  · exact ⟨rfl, rfl⟩

/-- The content length is a field of 32 bits: of a longer content the decoder takes as many bytes as the field says. -/
theorem decodeFile_wrapped {p : Packet} (q : Packet) {c : Bytes} (hc : p.content = some c) (hl : c.length = p.ctlen)
    (x : UInt8) (l : UInt32) : decodeFile q (x :: (putU32 l ++ p.body .file)) = .ok (.ok, { q with
      fileid := p.fileid, blockseq := p.blockseq, ctlen := c.length % 2 ^ 32,
      content := some (c.take (c.length % 2 ^ 32)) }) := by
  have hcontent : (p.content.getD []).length = p.ctlen := by
    rw [hc]
    exact hl
  have hn : (UInt32.ofNat p.ctlen).toNat = c.length % 2 ^ 32 := by rw [UInt32.toNat_ofNat', hl]
  have hread : slice c 0 (c.length % 2 ^ 32) = .ok (c.take (c.length % 2 ^ 32)) := by
    have hle := Nat.mod_le c.length (2 ^ 32)
    rw [slice, if_pos (by omega), List.drop_zero]
  rw [body_file hcontent, hc, Option.getD_some]
  simp only [putU32, putU16, List.cons_append, List.nil_append, decodeFile, bind_ok, getU32_succ, getU32_zero,
    getU16_succ, getU16_zero, u32_put, u16_put, slice_succ, hn, hread, pure_ok]

theorem decodeFile_body {p : Packet} (q : Packet) (h : p.Carries .file) (hc : p.content.isSome)
    (hlt : p.ctlen < 2 ^ 32) (x : UInt8) (l : UInt32) :
    ∃ q', decodeFile q (x :: (putU32 l ++ p.body .file)) = .ok (.ok, q') ∧ SameFields p q' .file := by
  obtain ⟨c, hc⟩ := Option.isSome_iff_exists.1 hc
  have hl : c.length = p.ctlen := by simpa [hc] using h.1
  refine ⟨_, decodeFile_wrapped q hc hl x l, rfl, rfl, ?_, ?_⟩
  · show c.length % 2 ^ 32 = p.ctlen
    rw [hl, Nat.mod_eq_of_lt hlt]
  · show some (c.take (c.length % 2 ^ 32)) = p.content
    rw [hc, hl, Nat.mod_eq_of_lt hlt, ← hl, List.take_length]

theorem decodeGiveme_body (p q : Packet) (x : UInt8) (l : UInt32) :
    ∃ q', decodeGiveme q (x :: (putU32 l ++ p.body .giveme)) = .ok (.ok, q') ∧ SameFields p q' .giveme := by
  rw [body_giveme]
  refine ⟨{ q with fileid := p.fileid, blockseq := p.blockseq }, ?_, ?_⟩
  · simp only [putU32, putU16, List.cons_append, List.nil_append, decodeGiveme, bind_ok, getU32_succ, getU32_zero,
      getU16_succ, getU16_zero, u32_put, u16_put, pure_ok]
  · exact ⟨rfl, rfl⟩

/-- **The bytes of a packet decode to it**, in whatever packet they are decoded. -/
theorem decode_wire {p : Packet} (q : Packet) {t : MsgType} (h : p.Sized t) :
    ∃ q', decode q (p.wire t) (p.wire t).length = .ok (.ok, q') ∧ q'.type = p.type ∧ q'.len = p.len ∧
      SameFields p q' t := by
  have hlen : (p.wire t).length = p.len.toNat := by rw [wire_length h.carries, h.len]
  have hsize : 6 ≤ p.len.toNat := by
    rw [h.len]
    cases t <;> simp only [Packet.size] <;> omega
  have htype : byteAt (p.wire t) 0 = .ok p.type := rfl
  have hplen : getU32 (p.wire t) 1 = .ok p.len := by
    simp only [Packet.wire, getU32_succ, putU32, List.cons_append, getU32_zero, u32_put]
  rw [decode, if_neg (by omega), if_neg (by omega), htype, bind_ok, hplen, bind_ok, if_neg (fun hne => hne hlen), h.type]
  cases t with
  | hello =>
    obtain ⟨q', hd, hs⟩ := decodeHello_body { q with type := p.type, len := p.len } h rfl p.type p.len
    exact ⟨q', hd, (decodeHello_ok hd).type, (decodeHello_ok hd).len, hs⟩
  | ack =>
    obtain ⟨q', hd, hs⟩ := decodeAck_body p { q with type := p.type, len := p.len } p.type p.len
    exact ⟨q', hd, (decodeAck_ok hd).type, (decodeAck_ok hd).len, hs⟩
  | file =>
    obtain ⟨c, hc, -⟩ := h.content (.inl rfl)
    obtain ⟨q', hd, hs⟩ := decodeFile_body { q with type := p.type, len := p.len } h.carries
      (by rw [hc]; rfl) (h.ctlen_lt (.inl rfl)) p.type p.len
    exact ⟨q', hd, (decodeFile_ok (.inl rfl) hd).type, (decodeFile_ok (.inl rfl) hd).len, hs⟩
  | fin =>
    obtain ⟨c, hc, -⟩ := h.content (.inr rfl)
    obtain ⟨q', hd, hs⟩ := decodeFile_body { q with type := p.type, len := p.len } h.carries
      (by rw [hc]; rfl) (h.ctlen_lt (.inr rfl)) p.type p.len
    exact ⟨q', hd, (decodeFile_ok (.inr rfl) hd).type, (decodeFile_ok (.inr rfl) hd).len, hs⟩
  | giveme =>
    obtain ⟨q', hd, hs⟩ := decodeGiveme_body p { q with type := p.type, len := p.len } p.type p.len
    exact ⟨q', hd, (decodeGiveme_ok hd).type, (decodeGiveme_ok hd).len, hs⟩

/-- **Decoding undoes encoding**, through a byte string and through segments. -/
theorem decode_encode (p q : Packet) (t : MsgType) (h : p.Sized t) :
    (∃ v, encode p = .ok (.ok, v, v.length) ∧ v.length = p.len.toNat ∧
      ∃ p', decode q v v.length = .ok (.ok, p') ∧ p'.type = p.type ∧ p'.len = p.len ∧ SameFields p p' t) ∧
    (∀ mem, ∃ p₁ v p', encodeIovs p (iovsAlloc mem) = .ok (.ok, p₁, v) ∧ decodeIovs q p₁.deref v = .ok (.ok, p') ∧
      p'.type = p.type ∧ p'.len = p.len ∧ SameFields p p' t) := by
  obtain ⟨p', hd, htype, hlen, hsame⟩ := decode_wire q h
  constructor
  · exact ⟨p.wire t, encode_eq_wire p h.type h.carries, by rw [wire_length h.carries, h.len], p', hd, htype, hlen, hsame⟩
  · intro mem
    obtain ⟨p₁, v, henc, hdec⟩ := decodeIovs_encodeIovs mem p q h.type h.carries
    exact ⟨p₁, v, p', henc, by rw [hdec, hd], htype, hlen, hsame⟩

theorem decode_encode_samples :
    (∃ v, encode { Packet.alloc with type := 1, len := 17, namelen := 3, fname := some [0x61, 0, 0x62] } =
      .ok (.ok, v, v.length)) ∧
    ∃ v, encode { Packet.alloc with type := 3, len := 15, content := some [] } = .ok (.ok, v, v.length) := by
  constructor
  · obtain ⟨⟨v, hv, -⟩, -⟩ := decode_encode
      { Packet.alloc with type := 1, len := 17, namelen := 3, fname := some [0x61, 0, 0x62] } Packet.alloc .hello
      ⟨rfl, rfl, fun _ => ⟨_, rfl, rfl⟩, by simp⟩
    exact ⟨v, hv⟩
  · obtain ⟨⟨v, hv, -⟩, -⟩ := decode_encode
      { Packet.alloc with type := 3, len := 15, content := some [] } Packet.alloc .file
      ⟨rfl, rfl, nofun, fun _ => ⟨_, rfl, rfl⟩⟩
    exact ⟨v, hv⟩

/-! ## Encoding what was decoded -/

/-- The size the type and the inner lengths of a buffer give. -/
def wireSize (v : Bytes) : Nat :=
  match MsgType.ofCode (v.getD 0 0) with
  | some .hello => 10 + (be16 v 8).toNat + 4
  | some .ack => 10
  | some .file => 15 + (be32 v 11).toNat
  | some .fin => 15 + (be32 v 11).toNat
  | some .giveme => 11
  | none => 0

theorem wireSize_wire {q : Packet} {t : MsgType} (ht : MsgType.ofCode q.type = some t) (hc : q.Carries t)
    (hlt : t = .file ∨ t = .fin → q.ctlen < 2 ^ 32) (slack : Bytes) : wireSize (q.wire t ++ slack) = q.size t := by
  have hd : (q.wire t ++ slack).getD 0 0 = q.type := rfl
  rw [wireSize, hd, ht]
  cases t with
  | hello =>
    have hn : be16 (q.wire .hello ++ slack) 8 = q.namelen := by
      rw [Packet.wire, body_hello hc]
      exact u16_put q.namelen
    simp only [hn, Packet.size]
  | ack => rfl
  | file =>
    have hn : be32 (q.wire .file ++ slack) 11 = UInt32.ofNat q.ctlen := by
      rw [Packet.wire, body_file hc.1]
      exact u32_put _
    simp only [hn, Packet.size, UInt32.toNat_ofNat_of_lt' (hlt (.inl rfl))]
  | fin =>
    have hn : be32 (q.wire .fin ++ slack) 11 = UInt32.ofNat q.ctlen := by
      rw [Packet.wire, body_fin, body_file hc.1]
      exact u32_put _
    simp only [hn, Packet.size, UInt32.toNat_ofNat_of_lt' (hlt (.inr rfl))]
  | giveme => rfl

theorem encode_of_decode {p q : Packet} {v : Bytes} {len : Nat} (h : decode p v len = .ok (.ok, q)) :
    ∃ w slack, encode q = .ok (.ok, w, w.length) ∧ v = w ++ slack ∧ w.length = wireSize v := by
  obtain ⟨t, ht, -, ⟨slack, hv⟩, hd⟩ := decode_ok h
  refine ⟨q.wire t, slack, encode_eq_wire q ht hd.carries, hv, ?_⟩
  rw [hv, wireSize_wire ht hd.carries (fun h => (hd.content h).2), wire_length hd.carries]

/-- **Encoding an accepted packet gives the bytes back exactly when they are as many as the packet's type and inner
lengths say**; among such buffers no two decode to one packet. -/
theorem encode_decode (p q : Packet) (v : Bytes) (h : decode p v v.length = .ok (.ok, q)) :
    (encode q = .ok (.ok, v, v.length) ↔ v.length = wireSize v) ∧
    (v.length = wireSize v → ∀ p' w, decode p' w w.length = .ok (.ok, q) → w.length = wireSize w → w = v) := by
  have key : ∀ {p w}, decode p w w.length = .ok (.ok, q) →
      (encode q = .ok (.ok, w, w.length) ↔ w.length = wireSize w) := by
    intro p w h
    obtain ⟨u, slack, henc, hw, hsize⟩ := encode_of_decode h
    rw [henc, ← hsize, hw]
    simp only [Except.ok.injEq, Prod.mk.injEq, true_and, List.length_append]
    constructor
    · rintro ⟨-, h⟩; exact h.symm
    · intro h
      have hs : slack = [] := List.eq_nil_of_length_eq_zero (by omega)
      simp [hs]
  refine ⟨key h, fun hv p' w hw hsize => ?_⟩
  have h1 := (key h).2 hv
  rw [(key hw).2 hsize] at h1
  cases h1
  rfl

theorem encode_decode_ack : encode { Packet.alloc with type := 2, len := 10, fileid := 0x01020304 } =
    .ok (.ok, [2, 0, 0, 0, 10, 0, 1, 2, 3, 4], 10) :=
  (encode_decode Packet.alloc _ [2, 0, 0, 0, 10, 0, 1, 2, 3, 4] rfl).1.2 rfl

/-- An ACK with a byte behind its file id is accepted: it is not what its packet encodes to, and another byte there
decodes to the same packet. -/
theorem decode_accepts_slack :
    ¬ (∀ p q v, decode p v v.length = .ok (.ok, q) → encode q = .ok (.ok, v, v.length)) ∧
    ¬ (∀ p q v w, decode p v v.length = .ok (.ok, q) → decode p w w.length = .ok (.ok, q) → v = w) := by
  have hd : ∀ b : UInt8, decode Packet.alloc [2, 0, 0, 0, 11, 0, 1, 2, 3, 4, b] 11 =
      .ok (.ok, { Packet.alloc with type := 2, len := 11, fileid := 0x01020304 }) := fun b => rfl
  constructor
  · intro h
    have h9 := h _ _ [2, 0, 0, 0, 11, 0, 1, 2, 3, 4, 9] (hd 9)
    rw [encode_eq_wire _ (t := .ack) rfl trivial] at h9
    exact absurd h9 (by decide)
  · intro h
    exact absurd (h _ _ [2, 0, 0, 0, 11, 0, 1, 2, 3, 4, 9] [2, 0, 0, 0, 11, 0, 1, 2, 3, 4, 8] (hd 9) (hd 8)) (by decide)

end Nftp
