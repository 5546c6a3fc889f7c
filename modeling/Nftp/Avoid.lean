import Nftp.Sender
/-!
# Avoid — the faults a call does not end in

`Avoids e x` says that `x` does not end in the fault `e`.  Parsing reads past the end of a buffer or takes a length from a
shorter one; a copy overflows; storing a block leaves the table or the loop; reading a block divides by a block size of 0.
What is none of these a call avoids.
-/
namespace Nftp

open Lib

variable {α β : Type} {h : Host} {s : State} {e : Fault}

def Avoids (e : Fault) (x : Except Fault α) : Prop := x ≠ .error e

@[simp] theorem avoids_ok (a : α) : Avoids e (.ok a : Except Fault α) := nofun

theorem avoids_error {e' : Fault} (he : e ≠ e') : Avoids e (.error e' : Except Fault α) := fun h => he (by cases h; rfl)

theorem avoids_bind_iff {x : Except Fault α} {f : α → Except Fault β} :
    Avoids e (x >>= f) ↔ Avoids e x ∧ ∀ a, x = .ok a → Avoids e (f a) := by
  rw [Avoids, ne_eq, bind_eq_error]
  push Not
  rfl

theorem Avoids.bind {x : Except Fault α} {f : α → Except Fault β} (hx : Avoids e x)
    (hf : ∀ a, x = .ok a → Avoids e (f a)) : Avoids e (x >>= f) :=
  avoids_bind_iff.2 ⟨hx, hf⟩

theorem avoids_ite {p : Prop} [Decidable p] {x y : Except Fault α} (hx : p → Avoids e x) (hy : ¬ p → Avoids e y) :
    Avoids e (if p then x else y) := by
  by_cases hp : p
  · rw [if_pos hp]
    exact hx hp
  · rw [if_neg hp]
    exact hy hp

/-! ## Parsing -/

section Parsing

variable (hread : e ≠ .overread)
include hread

theorem byteAt_avoids (v : Bytes) (pos : Nat) : Avoids e (byteAt v pos) := by
  rw [byteAt_eq]
  exact avoids_ite (fun _ => avoids_ok _) fun _ => avoids_error hread

theorem getU16_avoids (v : Bytes) (pos : Nat) : Avoids e (getU16 v pos) := by
  rw [getU16_eq]
  exact avoids_ite (fun _ => avoids_ok _) fun _ => avoids_error hread

theorem getU32_avoids (v : Bytes) (pos : Nat) : Avoids e (getU32 v pos) := by
  rw [getU32_eq]
  exact avoids_ite (fun _ => avoids_ok _) fun _ => avoids_error hread

theorem slice_avoids (v : Bytes) (pos n : Nat) : Avoids e (slice v pos n) :=
  avoids_ite (fun _ => avoids_ok _) fun _ => avoids_error hread

theorem decodeAck_avoids (p : Packet) (v : Bytes) : Avoids e (decodeAck p v) :=
  (byteAt_avoids hread v 5).bind fun _ _ => (getU32_avoids hread v 6).bind fun _ _ => avoids_ok _

theorem decodeFile_avoids (p : Packet) (v : Bytes) : Avoids e (decodeFile p v) :=
  (getU32_avoids hread v 5).bind fun _ _ => (getU16_avoids hread v 9).bind fun _ _ =>
    (getU32_avoids hread v 11).bind fun _ _ => (slice_avoids hread v 15 _).bind fun _ _ => avoids_ok _

theorem decodeGiveme_avoids (p : Packet) (v : Bytes) : Avoids e (decodeGiveme p v) :=
  (getU32_avoids hread v 5).bind fun _ _ => (getU16_avoids hread v 9).bind fun _ _ => avoids_ok _

variable (hunder : e ≠ .underflow)
include hunder

theorem decodeHello_avoids (p : Packet) (v : Bytes) : Avoids e (decodeHello p v) := by
  refine (byteAt_avoids hread v 5).bind fun id _ => (getU16_avoids hread v 6).bind fun blocks _ =>
    (getU16_avoids hread v 8).bind fun namelen _ => (slice_avoids hread v 10 _).bind fun fname _ => ?_
  refine avoids_ite (fun _ => avoids_error hunder) fun _ => ?_
  exact (slice_avoids hread v _ _).bind fun content _ => (getU32_avoids hread content 0).bind fun _ _ => avoids_ok _

theorem decode_avoids (p : Packet) (v : Bytes) (len : Nat) : Avoids e (decode p v len) := by
  refine avoids_ite (fun _ => avoids_ok _) fun _ => avoids_ite (fun _ => avoids_ok _) fun _ => ?_
  refine (byteAt_avoids hread v 0).bind fun type _ => (getU32_avoids hread v 1).bind fun plen _ => ?_
  refine avoids_ite (fun _ => avoids_ok _) fun _ => ?_
  cases MsgType.ofCode type with
  | none => exact avoids_ok _
  | some t =>
    cases t with
    | hello => exact decodeHello_avoids hread hunder _ v
    | ack => exact decodeAck_avoids hread _ v
    | file => exact decodeFile_avoids hread _ v
    | fin => exact decodeFile_avoids hread _ v
    | giveme => exact decodeGiveme_avoids hread _ v

end Parsing

/-! ## Paths -/

section Paths

variable (hover : e ≠ .overflow)
include hover

theorem strcpyAt_avoids (size pos : Nat) (b : Bytes) : Avoids e (strcpyAt size pos b) :=
  avoids_ite (fun _ => avoids_ok _) fun _ => avoids_error hover

theorem fileFullpath_avoids (dir : Option Bytes) (f : Bytes) : Avoids e (fileFullpath dir f) :=
  fun hr => hover (fileFullpath_error hr)

theorem partPath_avoids (s : State) (w : Bytes) : Avoids e (partPath s.recvdir w) :=
  fun hr => hover (partPath_error hr)

theorem tryNames_avoids (d : Disk) (dir : Option Bytes) (f : Bytes) : ∀ n i, Avoids e (tryNames d dir f i n)
  | 0, _ => avoids_ok _
  | n + 1, i => (fileFullpath_avoids hover dir _).bind fun _ _ =>
      avoids_ite (fun _ => avoids_ok _) fun _ => tryNames_avoids d dir f n (i + 1)

theorem pickName_avoids (s : State) (f : Bytes) : Avoids e (pickName s f) := by
  refine (fileFullpath_avoids hover s.recvdir f).bind fun path _ => avoids_ite (fun _ => ?_) fun _ => avoids_ok _
  exact (tryNames_avoids hover s.fs.disk s.recvdir f 99 1).bind fun _ _ => avoids_ok _

end Paths

/-! ## Storing a block -/

section Storing

variable (hdiv : e ≠ .diverge) (htable : e ≠ .tableIndex)
include hdiv htable

theorem drain_avoids (h : Host) (path : Path) : ∀ (fuel k : Nat) (c : Nctx) (fs : Fs), Avoids e (drain h path c fs k fuel)
  | 0, _, _, _ => avoids_error hdiv
  | fuel + 1, k, c, fs => by
    unfold drain
    refine avoids_ite (fun _ => avoids_ok _) fun _ => ?_
    split
    · exact avoids_error htable
    · exact avoids_ok _
    · exact avoids_ite (fun _ => avoids_ok _) fun _ => drain_avoids h path fuel (k + 1) _ _

theorem storeBlock_avoids (h : Host) (path : Path) (c : Nctx) (fs : Fs) (n : Packet) :
    Avoids e (storeBlock h path c fs n) := by
  refine avoids_ite (fun _ => avoids_ite (fun _ => avoids_ok _) fun _ => ?_) fun _ => ?_
  · exact (drain_avoids hdiv htable h path _ 1 c _).bind fun _ _ =>
      avoids_ite (fun _ => avoids_ok _) fun _ => avoids_ok _
  · cases c.entries[n.blockseq.toNat]? with
    | none => exact avoids_error htable
    | some e => exact avoids_ok _

end Storing

/-! ## Making a message -/

theorem encodeReply_avoids (s : State) {p : Packet} {t : MsgType} (ht : MsgType.ofCode p.type = some t)
    (hc : p.Carries t) : Avoids e (encodeReply s p) := by
  rw [encodeReply_eq s ht hc]
  exact avoids_ok _

section Making

variable (hzero : e ≠ .divZero)
include hzero

theorem fileBlocks_avoids (ans : ReadAns) (d : Disk) (blksz : UInt32) (path : Path) :
    Avoids e (fileBlocks ans d blksz path) :=
  avoids_ite (fun _ => avoids_ok _) fun _ => avoids_ite (fun _ => avoids_error hzero) fun _ => avoids_ok _

/-- A HELLO is made or not; its only copy is the one of the path. -/
theorem makeHello_avoids {fpath : Bytes} (key : Int)
    (hcopy : ∀ F, Sendable h s (fileCut fpath) F → Avoids e (strcpyAt fullpathSize 0 (fileCut fpath))) :
    Avoids e (makeHello h s (fileCut fpath) (fileBname fpath) key) := by
  by_cases hs : ∃ F, Sendable h s (fileCut fpath) F
  · obtain ⟨F, hs⟩ := hs
    rw [makeHello_sendable key hs]
    refine (hcopy F hs).bind fun u hu => ?_
    have hlen : (fileBname fpath).length < 2 ^ 16 := by
      have hfits := strcpyAt_eq_ok hu
      have hle : (fileBname fpath).length ≤ fullpathSize := fileBname_length fpath (by omega) (by decide)
      have : fullpathSize = 320 := rfl
      omega
    exact encodeReply_avoids _ (t := .hello) rfl (helloOf_sized s key F hlen).1.carries
  · rcases makeHello_refused (f := fileBname fpath) key (fun F hF => hs ⟨F, hF⟩) with he | ⟨rv, -, he⟩
    · rw [he]
      exact avoids_error hzero
    · rw [he]
      exact avoids_ok _

variable (hunder : e ≠ .underflow)
include hunder

theorem fileReadblk_avoids (ans : ReadAns) (d : Disk) (blksz : UInt32) (path : Path) (n : Int) :
    Avoids e (fileReadblk ans d blksz path n) := by
  unfold fileReadblk
  cases d path with
  | none => exact avoids_ok _
  | some c =>
    refine avoids_ite (fun _ => avoids_ok _) fun _ => avoids_ite (fun _ => avoids_error hzero) fun _ => ?_
    refine avoids_ite (fun _ => avoids_ok _) fun _ => avoids_ite (fun _ => avoids_error hunder) fun _ => ?_
    exact avoids_ite (fun _ => avoids_ok _) fun _ => avoids_ok _

theorem makeFile_avoids (h : Host) (s : State) (path f : Bytes) {t : MsgType} (ht : t = .file ∨ t = .fin) (i : Int) :
    Avoids e (makeFile h s path f t i) := by
  refine avoids_ite (fun _ => avoids_ok _) fun _ => ?_
  refine (fileReadblk_avoids hzero hunder h.readblk s.fs.disk s.blocksz path i).bind fun ⟨rv, v⟩ hread => ?_
  refine avoids_ite (fun _ => avoids_ok _) fun hrv => ?_
  rw [not_not.1 hrv] at hread
  exact encodeReply_avoids s (MsgType.ofCode_code t) (fileOf_carries ht f i (fileReadblk_lt hread))

/-- Making another message than a HELLO copies no path. -/
theorem protoMaker_avoids (h : Host) (s : State) (fpath : Option Bytes) {type : Option MsgType} (ht : type ≠ some .hello)
    (key n : Int) : Avoids e (protoMaker h s fpath type key n) := by
  cases fpath with
  | none => exact avoids_ok _
  | some fpath =>
    cases type with
    | none =>
      rw [protoMaker, show encodeReply s Packet.alloc = .ok ⟨.type, none, 0, s⟩ from rfl]
      exact avoids_ok _
    | some t =>
      cases t with
      | hello => exact absurd rfl ht
      | ack => exact encodeReply_avoids s (t := .ack) rfl trivial
      | file => exact makeFile_avoids hzero hunder h s _ _ (.inl rfl) n
      | fin => exact makeFile_avoids hzero hunder h s _ _ (.inr rfl) n
      | giveme => exact avoids_ite (fun _ => avoids_ok _) fun _ => encodeReply_avoids s (t := .giveme) rfl trivial

end Making

end Nftp
