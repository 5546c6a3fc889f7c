import Nftp.Iovs
/-!
# Codec — `codec.c`

A packet, its decoder with every read checked against the buffer it is made on, and its encoder, which collects
pointers into the packet and into the 14-byte scratch buffer `exbuf` and flattens them last.  `decodeX` is the case of the type `X` in `nftp_decode`.
-/
namespace Nftp

open Lib

/-- `nftp`.  `none` is the NULL pointer of `fname` and `content`. -/
structure Packet where
  type : UInt8
  len : UInt32
  id : UInt8
  blocks : UInt16
  blockseq : UInt16
  fname : Option Bytes
  namelen : UInt16
  fileid : UInt32
  hashcode : UInt32
  content : Option Bytes
  ctlen : Nat
  exbuf : Bytes
  exbuf_length : exbuf.length = 14
  deriving DecidableEq

def Packet.alloc : Packet :=
  { type := 0, len := 0, id := 0, blocks := 0, blockseq := 0, fname := none, namelen := 0, fileid := 0, hashcode := 0,
    content := none, ctlen := 0, exbuf := List.replicate 14 0, exbuf_length := rfl }

/-! ## Decoding -/

def decodeHello (p : Packet) (v : Bytes) : Except Fault (Rv × Packet) := do
  let id ← byteAt v 5
  let blocks ← getU16 v 6
  let namelen ← getU16 v 8
  let fname ← slice v 10 namelen.toNat
  let pos := 10 + namelen.toNat
  if p.len.toNat < pos then .error .underflow
  else do
    let ctlen := p.len.toNat - pos
    let content ← slice v pos ctlen
    let hashcode ← getU32 content 0
    return (.ok, { p with id := id, blocks := blocks, namelen := namelen, fname := some fname, ctlen := ctlen,
                          content := some content, hashcode := hashcode })

def decodeAck (p : Packet) (v : Bytes) : Except Fault (Rv × Packet) := do
  let id ← byteAt v 5
  let fileid ← getU32 v 6
  return (.ok, { p with id := id, fileid := fileid })

def decodeFile (p : Packet) (v : Bytes) : Except Fault (Rv × Packet) := do
  let fileid ← getU32 v 5
  let blockseq ← getU16 v 9
  let ctlen ← getU32 v 11
  let content ← slice v 15 ctlen.toNat
  return (.ok, { p with fileid := fileid, blockseq := blockseq, ctlen := ctlen.toNat, content := some content })

def decodeGiveme (p : Packet) (v : Bytes) : Except Fault (Rv × Packet) := do
  let fileid ← getU32 v 5
  let blockseq ← getU16 v 9
  return (.ok, { p with fileid := fileid, blockseq := blockseq })

/-- `nftp_decode`: the packet `p` filled from the buffer `v`, said to hold `len` bytes. -/
def decode (p : Packet) (v : Bytes) (len : Nat) : Except Fault (Rv × Packet) :=
  if len = 0 then .ok (.empty, p)
  else if len < 6 then .ok (.stream, p)
  else do
    let type ← byteAt v 0
    let plen ← getU32 v 1
    let p := { p with type := type, len := plen }
    if len ≠ plen.toNat then .ok (.stream, p)
    else match MsgType.ofCode type with
      | some .hello => decodeHello p v
      | some .ack => decodeAck p v
      | some .file => decodeFile p v
      | some .fin => decodeFile p v
      | some .giveme => decodeGiveme p v
      | none => .ok (.type, p)

/-! ## Encoding -/

/-- Where a segment of an encoded packet points. -/
inductive Ptr
  | type | id | exbuf (off : Nat) | fname | content
  deriving DecidableEq, Repr

def Packet.deref (p : Packet) : Ptr → Bytes
  | .type => [p.type]
  | .id => [p.id]
  | .exbuf off => p.exbuf.drop off
  | .fname => p.fname.getD []
  | .content => p.content.getD []

def Packet.putExbuf (p : Packet) (off : Nat) (bs : Bytes) : Except Fault Packet :=
  if h : off + bs.length ≤ 14 then
    .ok { p with
      exbuf := p.exbuf.take off ++ bs ++ p.exbuf.drop (off + bs.length)
      exbuf_length := by
        have := p.exbuf_length
        simp only [List.length_append, List.length_take, List.length_drop]
        omega }
  else .error .overflow

/-- One field of the body: bytes put in the scratch buffer at `off` and appended from there, or bytes of the packet. -/
inductive Field
  | scratch (off : Nat) (bs : Bytes)
  | direct (ptr : Option Ptr) (len : Nat)
  deriving DecidableEq, Repr

/-- The fields of a packet, in the order `nftp_encode_iovs` appends them. -/
def Packet.fields (p : Packet) : MsgType → List Field
  | .hello => [.direct (some .id) 1, .scratch 4 (putU16 p.blocks), .scratch 6 (putU16 p.namelen),
      .direct (p.fname.map fun _ => .fname) p.namelen.toNat, .scratch 8 (putU32 p.hashcode)]
  | .ack => [.direct (some .id) 1, .scratch 4 (putU32 p.fileid)]
  | .file | .fin => [.scratch 4 (putU32 p.fileid), .scratch 8 (putU16 p.blockseq),
      .scratch 10 (putU32 (UInt32.ofNat p.ctlen)), .direct (p.content.map fun _ => .content) p.ctlen]
  | .giveme => [.scratch 4 (putU32 p.fileid), .scratch 8 (putU16 p.blockseq)]

/-- Put and append the fields one after the other; a refused append ends in `goto error`. -/
def encodeFields (p : Packet) (v : Iovs Ptr) : List Field → Except Fault (Rv × Packet × Iovs Ptr)
  | [] => .ok (.ok, p, v)
  | .scratch off bs :: rest => do
    let p ← p.putExbuf off bs
    let (rv, v) ← iovsAppend v (some (.exbuf off)) bs.length
    if rv ≠ .ok then .ok (.iovs, p, v) else encodeFields p v rest
  | .direct ptr len :: rest => do
    let (rv, v) ← iovsAppend v ptr len
    if rv ≠ .ok then .ok (.iovs, p, v) else encodeFields p v rest

/-- `nftp_encode_iovs`: the packet with its scratch buffer filled, and the segments that point into it. -/
def encodeIovs (p : Packet) (v : Iovs Ptr) : Except Fault (Rv × Packet × Iovs Ptr) :=
  if v.len ≠ 0 then .ok (.iovs, p, v)
  else match MsgType.ofCode p.type with
    | none => .ok (.type, p, v)
    | some t => do
      let (rv, p, v) ← encodeFields p v (p.fields t)
      if rv ≠ .ok then .ok (.iovs, p, v)
      else do
        -- length and type go in front last
        let p ← p.putExbuf 0 (putU32 p.len)
        let (rv, v) ← iovsPush v (some (.exbuf 0)) 4 .head
        if rv ≠ .ok then .ok (.iovs, p, v)
        else do
          let (rv, v) ← iovsPush v (some .type) 1 .head
          if rv ≠ .ok then .ok (.iovs, p, v) else .ok (.ok, p, v)

/-- `nftp_encode`, with its iovs in an array whose slots hold `mem`: the bytes and their number. -/
def encodeIn (mem : Nat → Iovec Ptr) (p : Packet) : Except Fault (Rv × Bytes × Nat) := do
  let (rv, p, v) ← encodeIovs p (iovsAlloc mem)
  if rv ≠ .ok then .ok (rv, [], 0) else iovs2stream p.deref v

/-- `nftp_encode`; `encodeIn_eq` shows that the array's slots do not matter. -/
def encode (p : Packet) : Except Fault (Rv × Bytes × Nat) := encodeIn (fun _ => ⟨none, 0⟩) p

/-- `nftp_decode_iovs`, `deref` giving the memory the segments point into. -/
def decodeIovs {β : Type} (p : Packet) (deref : β → Bytes) (v : Iovs β) : Except Fault (Rv × Packet) := do
  let (rv, str, len) ← iovs2stream deref v
  if rv ≠ .ok then .ok (.iovs, p) else decode p str len

/-! ## The bytes of a packet

`Packet.wire` is what the encoder is for: type, length, and the fields in order.  `encode_eq_wire` shows that the
pointers collected on the way still read those bytes when they are flattened. -/

def Packet.fieldBytes (p : Packet) : Field → Bytes
  | .scratch _ bs => bs
  | .direct (some ptr) len => (p.deref ptr).take len
  | .direct none _ => []

def Packet.body (p : Packet) (t : MsgType) : Bytes := (p.fields t).flatMap p.fieldBytes

def Packet.wire (p : Packet) (t : MsgType) : Bytes := p.type :: (putU32 p.len ++ p.body t)

/-- The name and the content are as long as their length fields say; no content is larger than an object can be. -/
def Packet.Carries (p : Packet) : MsgType → Prop
  | .hello => (p.fname.getD []).length = p.namelen.toNat
  | .file | .fin => (p.content.getD []).length = p.ctlen ∧ p.ctlen < 2 ^ 63
  | _ => True

/-- Two packets that differ in the scratch buffer only. -/
def SameButScratch (p q : Packet) : Prop :=
  q = { p with exbuf := q.exbuf, exbuf_length := q.exbuf_length }

@[simp] theorem SameButScratch.refl (p : Packet) : SameButScratch p p := rfl

theorem SameButScratch.trans {p q r : Packet} (h : SameButScratch p q) (h' : SameButScratch q r) :
    SameButScratch p r := by
  unfold SameButScratch at *
  rw [h', h]

/-- A field whose bytes are not read from the scratch buffer by pointer. -/
def Field.Plain : Field → Prop
  | .direct (some (.exbuf _)) _ => False
  | _ => True

theorem plain_fields {p : Packet} {t : MsgType} {f : Field} (hf : f ∈ p.fields t) : f.Plain := by
  cases t <;> simp only [Packet.fields, List.mem_cons, List.not_mem_nil, or_false] at hf
  · rcases hf with rfl | rfl | rfl | rfl | rfl
    · trivial
    · trivial
    · trivial
    · cases p.fname <;> trivial
    · trivial
  · rcases hf with rfl | rfl <;> trivial
  all_goals try (rcases hf with rfl | rfl <;> trivial)
  all_goals
    rcases hf with rfl | rfl | rfl | rfl
    · trivial
    · trivial
    · trivial
    · cases p.content <;> trivial

theorem SameButScratch.fieldBytes {p q : Packet} (h : SameButScratch p q) {f : Field} (hf : f.Plain) :
    q.fieldBytes f = p.fieldBytes f := by
  rw [h]
  match f, hf with
  | .scratch _ _, _ => rfl
  | .direct none _, _ => rfl
  | .direct (some .type) _, _ => rfl
  | .direct (some .id) _, _ => rfl
  | .direct (some .fname) _, _ => rfl
  | .direct (some .content) _, _ => rfl

def Packet.scratchAt (p : Packet) (off n : Nat) : Bytes := (p.exbuf.drop off).take n

/-- **A store in the scratch buffer** is read back, and leaves every disjoint range as it was. -/
theorem putExbuf_ok (p : Packet) (off : Nat) (bs : Bytes) (h : off + bs.length ≤ 14) :
    ∃ q, p.putExbuf off bs = .ok q ∧ SameButScratch p q ∧ q.scratchAt off bs.length = bs ∧
      ∀ off' n, (off' + n ≤ off ∨ off + bs.length ≤ off') → q.scratchAt off' n = p.scratchAt off' n := by
  have hl := p.exbuf_length
  unfold Packet.putExbuf
  rw [dif_pos h]
  refine ⟨_, rfl, rfl, ?_, ?_⟩
  · simp only [Packet.scratchAt]
    rw [List.append_assoc, List.drop_append_of_le_length (by simp; omega)]
    simp
  · intro off' n hd
    simp only [Packet.scratchAt]
    apply List.ext_getElem?
    intro i
    simp only [List.getElem?_take, List.getElem?_drop, List.getElem?_append, List.length_take, List.length_append]
    by_cases hi : i < n
    · rw [if_pos hi, if_pos hi]
      rcases hd with hd | hd
      · rw [if_pos (by omega), if_pos (by omega), if_pos (by omega)]
      · rw [if_neg (by omega)]
        congr 1
        omega
    · simp [hi]

/-! ## What encoding collects -/

def Field.segment : Field → Iovec Ptr
  | .scratch off bs => ⟨some (.exbuf off), bs.length⟩
  | .direct ptr len => ⟨ptr, len⟩

/-- A field that leaves the range `off … off + n` of the scratch buffer alone. -/
def Field.Apart (off n : Nat) : Field → Prop
  | .scratch o bs => off + n ≤ o ∨ o + bs.length ≤ off
  | .direct _ _ => True

/-- Fields that fit the scratch buffer behind the packet length, no two of them overlapping. -/
def Layout : List Field → Prop
  | [] => True
  | f :: fs => (match f with
      | .scratch off bs => 4 ≤ off ∧ off + bs.length ≤ 14 ∧ ∀ g ∈ fs, g.Apart off bs.length
      | .direct _ _ => True) ∧ Layout fs

theorem layout_fields (p : Packet) (t : MsgType) : Layout (p.fields t) := by
  cases t <;> simp [Packet.fields, Layout, Field.Apart]

/-- What a segment reads once the scratch buffer is filled. -/
def Field.Holds (p : Packet) : Field → Prop
  | .scratch off bs => p.scratchAt off bs.length = bs
  | .direct _ _ => True

/-- **Collecting the fields**: every append finds room, the segments are the fields' in order, and the scratch buffer
holds every field at once. -/
theorem encodeFields_ok : ∀ (fs : List Field) (p : Packet) (v : Iovs Ptr), Layout fs → v.Wf →
    v.low + v.len + fs.length ≤ v.cap →
    ∃ q w, encodeFields p v fs = .ok (.ok, q, w) ∧ SameButScratch p q ∧ w.Wf ∧
      w.segs = v.segs ++ fs.map Field.segment ∧ w.low = v.low ∧
      sizeT w.iolen = sizeT (v.iolen + ((fs.map Field.segment).map Iovec.len).sum) ∧
      (∀ f ∈ fs, f.Holds q) ∧ ∀ off n, (∀ f ∈ fs, f.Apart off n) → q.scratchAt off n = p.scratchAt off n
  | [], p, v, _, hv, _ => ⟨p, v, rfl, rfl, hv, by simp, rfl, by simp, by simp, by simp⟩
  | .scratch off bs :: fs, p, v, hl, hv, hr => by
    obtain ⟨⟨h4, h14, hap⟩, hl⟩ := hl
    rw [List.length_cons] at hr
    obtain ⟨p₁, hput, hsame, hself, hother⟩ := putExbuf_ok p off bs h14
    obtain ⟨v₁, hpush, hv₁, hsegs, hlow, hlen, hcap, hio⟩ :=
      iovsPush_tail hv (by omega) (some (Ptr.exbuf off)) bs.length
    obtain ⟨q, w, henc, hsame', hw, hsegs', hlow', hio', hholds, hframe⟩ :=
      encodeFields_ok fs p₁ v₁ hl hv₁ (by omega)
    refine ⟨q, w, ?_, hsame.trans hsame', hw, ?_, by omega, ?_, ?_, ?_⟩
    · rw [encodeFields, hput, bind_ok, iovsAppend, hpush, bind_ok]
      exact henc
    · rw [hsegs', hsegs, List.append_assoc]; rfl
    · rw [hio', hio, sizeT_sizeT_add]
      simp only [List.map_cons, List.sum_cons, Field.segment, Nat.cast_add, add_assoc]
    · intro f hf
      rcases List.mem_cons.1 hf with rfl | hf
      · exact (hframe off bs.length hap).trans hself
      · exact hholds f hf
    · intro off' n hd
      rw [hframe off' n (fun f hf => hd f (List.mem_cons_of_mem _ hf))]
      exact hother off' n (hd _ List.mem_cons_self)
  | .direct ptr len :: fs, p, v, hl, hv, hr => by
    rw [List.length_cons] at hr
    obtain ⟨v₁, hpush, hv₁, hsegs, hlow, hlen, hcap, hio⟩ := iovsPush_tail hv (by omega) ptr len
    obtain ⟨q, w, henc, hsame, hw, hsegs', hlow', hio', hholds, hframe⟩ :=
      encodeFields_ok fs p v₁ hl.2 hv₁ (by omega)
    refine ⟨q, w, ?_, hsame, hw, ?_, by omega, ?_, ?_, ?_⟩
    · rw [encodeFields, iovsAppend, hpush, bind_ok]
      exact henc
    · rw [hsegs', hsegs, List.append_assoc]; rfl
    · rw [hio', hio, sizeT_sizeT_add]
      simp only [List.map_cons, List.sum_cons, Field.segment, Nat.cast_add, add_assoc]
    · intro f hf
      rcases List.mem_cons.1 hf with rfl | hf
      · trivial
      · exact hholds f hf
    · intro off' n hd
      exact hframe off' n (fun f hf => hd f (List.mem_cons_of_mem _ hf))

theorem length_of_carries {p : Packet} {t : MsgType} (hc : p.Carries t) {ptr : Option Ptr} {len : Nat}
    (hf : Field.direct ptr len ∈ p.fields t) :
    (ptr = none ∧ len = 0) ∨ ∃ x, ptr = some x ∧ (p.deref x).length = len := by
  cases t <;> simp only [Packet.fields, List.mem_cons, List.not_mem_nil, or_false, Field.direct.injEq, reduceCtorEq,
    false_or] at hf
  · rcases hf with ⟨rfl, rfl⟩ | ⟨rfl, rfl⟩
    · exact .inr ⟨_, rfl, rfl⟩
    · cases hn : p.fname with
      | none => left; simpa [Packet.Carries, hn, eq_comm] using hc
      | some f => right; exact ⟨_, rfl, hc⟩
  · obtain ⟨rfl, rfl⟩ := hf
    exact .inr ⟨_, rfl, rfl⟩
  all_goals
    obtain ⟨rfl, rfl⟩ := hf
    obtain ⟨hlen, -⟩ := hc
    cases hn : p.content with
    | none => left; simpa [hn, eq_comm] using hlen
    | some f =>
      right
      rw [hn] at hlen
      exact ⟨_, rfl, by simpa [Packet.deref, hn] using hlen⟩

theorem copySegment_field {p : Packet} {t : MsgType} (hc : p.Carries t) {f : Field} (hf : f ∈ p.fields t)
    (hh : f.Holds p) : copySegment p.deref f.segment = .ok (p.fieldBytes f) ∧
      (p.fieldBytes f).length = f.segment.len := by
  cases f with
  | scratch off bs =>
    have hl : 0 + bs.length ≤ (p.exbuf.drop off).length := by
      have := congrArg List.length hh
      rw [Packet.scratchAt, List.length_take] at this
      omega
    refine ⟨?_, rfl⟩
    show slice (p.exbuf.drop off) 0 bs.length = .ok bs
    rw [slice, if_pos hl]
    exact congrArg _ hh
  | direct ptr len =>
    rcases length_of_carries hc hf with ⟨rfl, rfl⟩ | ⟨x, rfl, rfl⟩
    · exact ⟨rfl, rfl⟩
    · simp only [Field.segment, copySegment, Packet.fieldBytes, List.take_length, slice_self, and_self]

theorem flatten_fields {p : Packet} {t : MsgType} (hc : p.Carries t) : ∀ (fs : List Field), fs ⊆ p.fields t →
    (∀ f ∈ fs, f.Holds p) → flatten p.deref (fs.map Field.segment) = .ok (fs.flatMap p.fieldBytes) ∧
      (fs.flatMap p.fieldBytes).length = ((fs.map Field.segment).map Iovec.len).sum
  | [], _, _ => ⟨rfl, rfl⟩
  | f :: fs, hsub, hh => by
    obtain ⟨hcopy, hlen⟩ := copySegment_field hc (hsub List.mem_cons_self) (hh f List.mem_cons_self)
    obtain ⟨hflat, hsum⟩ := flatten_fields hc fs (fun g hg => hsub (List.mem_cons_of_mem _ hg))
      (fun g hg => hh g (List.mem_cons_of_mem _ hg))
    constructor
    · rw [List.map_cons, flatten, hcopy, bind_ok, hflat, bind_ok, List.flatMap_cons]; rfl
    · rw [List.flatMap_cons, List.length_append, hlen, hsum, List.map_cons, List.map_cons, List.sum_cons]

theorem fields_length_le (p : Packet) (t : MsgType) : (p.fields t).length ≤ 5 := by
  cases t <;> simp [Packet.fields]

/-- The lengths of the fields, and of what goes in front of them, add up in a `size_t`. -/
theorem fields_sum_lt {p : Packet} {t : MsgType} (hc : p.Carries t) :
    (((p.fields t).map Field.segment).map Iovec.len).sum + 5 < 2 ^ 64 := by
  have hname := p.namelen.toNat_lt
  cases t <;> simp only [Packet.fields, List.map_cons, List.map_nil, List.sum_cons, List.sum_nil, Field.segment,
    putU16_length, putU32_length]
  · omega
  · omega
  · have hlt : p.ctlen < 2 ^ 63 := hc.2
    omega
  · have hlt : p.ctlen < 2 ^ 63 := hc.2
    omega
  · omega

theorem SameButScratch.fields {p q : Packet} (h : SameButScratch p q) (t : MsgType) : q.fields t = p.fields t := by
  rw [h]; cases t <;> rfl

theorem SameButScratch.carries {p q : Packet} (h : SameButScratch p q) {t : MsgType} (hc : p.Carries t) :
    q.Carries t := by
  rw [h]; cases t <;> exact hc

/-- **The segments collected read the packet's bytes in order**, whatever the order they were pushed in and wherever
they point. -/
theorem encodeIovs_flatten (mem : Nat → Iovec Ptr) (p : Packet) {t : MsgType} (ht : MsgType.ofCode p.type = some t)
    (hc : p.Carries t) : ∃ q v, encodeIovs p (iovsAlloc mem) = .ok (.ok, q, v) ∧
      iovs2stream q.deref v = .ok (.ok, p.wire t, (p.wire t).length) := by
  have hfl := fields_length_le p t
  obtain ⟨q₁, v₁, henc, hsame₁, hv₁, hsegs₁, hlow₁, hio₁, hholds₁, -⟩ :=
    encodeFields_ok (p.fields t) p (iovsAlloc mem) (layout_fields p t) (iovsAlloc_wf mem) (by
      show 32 / 3 + 0 + _ ≤ 32
      omega)
  obtain ⟨q, hput, hsame₂, hself, hother⟩ := putExbuf_ok q₁ 0 (putU32 q₁.len) (by simp)
  have hl1 : v₁.low = 10 := hlow₁
  obtain ⟨v₂, hpush₂, hv₂, hsegs₂, hlow₂, -, -, hio₂⟩ := iovsPush_head hv₁ (by omega) (some (Ptr.exbuf 0)) 4
  obtain ⟨v, hpush₃, hv₃, hsegs₃, -, -, -, hio₃⟩ := iovsPush_head hv₂ (by omega) (some Ptr.type) 1
  have hsame : SameButScratch p q := hsame₁.trans hsame₂
  have hlen : q₁.len = p.len := by rw [hsame₁]
  refine ⟨q, v, ?_, ?_⟩
  · rw [encodeIovs, if_neg fun hne => hne rfl, ht]
    simp only [henc, bind_ok, hput, hpush₂, hpush₃]
    rfl
  · -- the fields are still there after the length was put in front of them
    have hholds : ∀ f ∈ q.fields t, f.Holds q := by
      intro f hf
      rw [hsame.fields] at hf
      have h1 := hholds₁ f hf
      cases f with
      | direct ptr len => trivial
      | scratch off bs =>
        have h4 : 4 ≤ off := by
          cases t <;> simp [Packet.fields] at hf <;> omega
        exact (hother off bs.length (.inr (by simpa using h4))).trans h1
    obtain ⟨hflat, hsum⟩ := flatten_fields (hsame.carries hc) (q.fields t) (List.Subset.refl _) hholds
    have hbytes : (q.fields t).flatMap q.fieldBytes = p.body t := by
      rw [Packet.body, hsame.fields]
      exact List.flatMap_congr fun f hf => hsame.fieldBytes (plain_fields hf)
    have htype : q.type = p.type := by rw [hsame]
    have hhead : copySegment q.deref ⟨some (.exbuf 0), 4⟩ = .ok (putU32 p.len) := by
      have hl : 0 + 4 ≤ (q.exbuf.drop 0).length := by rw [List.drop_zero, q.exbuf_length]; omega
      show slice (q.exbuf.drop 0) 0 4 = _
      rw [slice, if_pos hl, ← hlen]
      exact congrArg _ hself
    have hwire : flatten q.deref v.segs = .ok (p.wire t) := by
      have h1 : copySegment q.deref ⟨some .type, 1⟩ = .ok [p.type] := by rw [← htype]; exact slice_self [q.type]
      rw [hsegs₃, hsegs₂, hsegs₁, iovsAlloc_segs, List.nil_append, ← hsame.fields, flatten, flatten, h1, hhead, hflat,
        hbytes]
      rfl
    have hwlen : (p.wire t).length = v.iolen := by
      have hlt := fields_sum_lt hc
      rw [hsame.fields] at hsum hbytes
      rw [← hsum, hbytes] at hlt hio₁
      have hzero : ((iovsAlloc mem).iolen : Int) = 0 := rfl
      have hbody : (p.body t).length < 2 ^ 64 := by omega
      rw [hzero, zero_add, sizeT_natCast hbody] at hio₁
      rw [hio₃, hio₂, sizeT_sizeT_add, add_assoc, ← sizeT_sizeT_add, hio₁, Packet.wire]
      simp only [List.length_cons, List.length_append, putU32_length]
      unfold sizeT
      omega
    rw [iovs2stream_eq hv₃ hwire hwlen, hwlen]

/-! ## The memory the iovs is allocated in -/

theorem encodeFields_like (fs : List Field) : ∀ (p : Packet) {v w : Iovs Ptr}, v.Like w →
    Alike Eq (fun a b => a.1 = b.1 ∧ a.2.1 = b.2.1 ∧ a.2.2.Like b.2.2) (encodeFields p v fs) (encodeFields p w fs) := by
  induction fs with
  | nil => exact fun _ _ _ h => .ok ⟨rfl, rfl, h⟩
  | cons f fs ih =>
    intro p v w h
    cases f with
    | scratch off bs =>
      refine Alike.bind_same fun p _ => (iovsPush_like h _ _ .tail).bind ?_
      rintro ⟨rv, v'⟩ ⟨rv', w'⟩ ⟨rfl, h'⟩
      exact .ite (fun _ => .ok ⟨rfl, rfl, h'⟩) fun _ => ih p h'
    | direct ptr len =>
      refine (iovsPush_like h ptr len .tail).bind ?_
      rintro ⟨rv, v'⟩ ⟨rv', w'⟩ ⟨rfl, h'⟩
      exact .ite (fun _ => .ok ⟨rfl, rfl, h'⟩) fun _ => ih p h'

theorem encodeIovs_like (p : Packet) {v w : Iovs Ptr} (h : v.Like w) :
    Alike Eq (fun a b => a.1 = b.1 ∧ a.2.1 = b.2.1 ∧ a.2.2.Like b.2.2) (encodeIovs p v) (encodeIovs p w) := by
  unfold encodeIovs
  rw [h.len]
  refine .ite (fun _ => .ok ⟨rfl, rfl, h⟩) fun _ => ?_
  cases MsgType.ofCode p.type with
  | none => exact .ok ⟨rfl, rfl, h⟩
  | some t =>
    refine (encodeFields_like (p.fields t) p h).bind ?_
    rintro ⟨rv, p, v⟩ ⟨_, _, w⟩ ⟨rfl, rfl, h⟩
    refine .ite (fun _ => .ok ⟨rfl, rfl, h⟩) fun _ => Alike.bind_same fun p _ => (iovsPush_like h _ _ .head).bind ?_
    rintro ⟨rv, v⟩ ⟨_, w⟩ ⟨rfl, h⟩
    refine .ite (fun _ => .ok ⟨rfl, rfl, h⟩) fun _ => (iovsPush_like h _ _ .head).bind ?_
    rintro ⟨rv, v⟩ ⟨_, w⟩ ⟨rfl, h⟩
    exact .ite (fun _ => .ok ⟨rfl, rfl, h⟩) fun _ => .ok ⟨rfl, rfl, h⟩

/-- **No byte that `malloc` left in the iovs reaches the message.** -/
theorem encodeIn_eq (mem : Nat → Iovec Ptr) (p : Packet) : encodeIn mem p = encode p := by
  refine Alike.eq ((encodeIovs_like p (iovsAlloc_like mem _)).bind ?_)
  rintro ⟨rv, p, v⟩ ⟨_, _, w⟩ ⟨rfl, rfl, h⟩
  refine .ite (fun _ => .ok rfl) fun _ => ?_
  show Alike Eq Eq (iovs2stream p.deref v) (iovs2stream p.deref w)
  rw [iovs2stream_like h]
  exact .refl (fun _ => rfl) _

/-! ## The bytes written -/

/-- **`nftp_encode` writes the packet's bytes.** -/
theorem encode_eq_wire (p : Packet) {t : MsgType} (ht : MsgType.ofCode p.type = some t) (hc : p.Carries t) :
    encode p = .ok (.ok, p.wire t, (p.wire t).length) := by
  obtain ⟨q, v, henc, hstream⟩ := encodeIovs_flatten (fun _ => ⟨none, 0⟩) p ht hc
  rw [encode, encodeIn, henc]
  exact hstream

theorem decodeIovs_encodeIovs (mem : Nat → Iovec Ptr) (p q : Packet) {t : MsgType} (ht : MsgType.ofCode p.type = some t)
    (hc : p.Carries t) : ∃ p' v, encodeIovs p (iovsAlloc mem) = .ok (.ok, p', v) ∧
      decodeIovs q p'.deref v = decode q (p.wire t) (p.wire t).length := by
  obtain ⟨p', v, henc, hstream⟩ := encodeIovs_flatten mem p ht hc
  refine ⟨p', v, henc, ?_⟩
  rw [decodeIovs, hstream]
  rfl

end Nftp
