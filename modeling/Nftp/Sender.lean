import Nftp.Lib.Chunks
import Nftp.Handler
import Nftp.Paths
/-!
# Sender — the messages a sender makes

What `nftp_proto_maker` and the GIVEME case of the handler answer when file operations succeed: a HELLO for the blocks
the file is cut into, and a FILE or END with the block asked for.
-/
namespace Nftp

open Lib

variable {h : Host} {s S : State} {p : Packet} {r : Ret} {F : Bytes} {b : ℕ}

/-! ## The name of a path -/

theorem basename_self {f : Bytes} (hne : f ≠ []) (hs : slash ∉ f) : basename f = f := by
  have hall : ∀ x ∈ f.reverse, x ≠ slash := fun x hx he => hs (he ▸ List.mem_reverse.1 hx)
  have hdrop : f.reverse.dropWhile (· = slash) = f.reverse := by
    cases hf : f.reverse with
    | nil => rfl
    | cons x xs => exact List.dropWhile_cons_of_neg (by simpa using hall x (by rw [hf]; exact List.mem_cons_self))
  have htake : f.reverse.takeWhile (· ≠ slash) = f.reverse :=
    List.takeWhile_eq_self_iff.2 fun x hx => decide_eq_true (hall x hx)
  rw [basename, if_neg hne]
  simp only [hdrop, List.reverse_reverse, if_neg hne, htake]

/-- A name is a `.`, a `/`, or the bytes behind the last slash of the path. -/
theorem basename_cases (path : Bytes) : basename path = [0x2e] ∨ basename path = [slash] ∨
    (basename path ≠ [] ∧ slash ∉ basename path ∧ basename path ⊆ path ∧ (basename path).length ≤ path.length) := by
  unfold basename
  by_cases hp : path = []
  · exact .inl (if_pos hp)
  rw [if_neg hp]
  simp only [List.reverse_reverse]
  by_cases hs : (path.reverse.dropWhile (· = slash)).reverse = []
  · exact .inr (.inl (if_pos hs))
  rw [if_neg hs]
  refine .inr (.inr ⟨?_, ?_, ?_, ?_⟩)
  · cases hd : path.reverse.dropWhile (· = slash) with
    | nil => exact absurd (by rw [hd]; rfl) hs
    | cons x xs =>
      have hx : ¬ x = slash := by
        have h1 := List.head?_dropWhile_not (fun x : UInt8 => decide (x = slash)) path.reverse
        rw [hd] at h1
        simpa using h1
      rw [List.takeWhile_cons_of_pos (by simpa using hx), List.reverse_cons]
      exact List.concat_ne_nil x _
  · intro hm
    have := List.mem_takeWhile_imp (List.mem_reverse.1 hm)
    simp at this
  · intro x hx
    exact List.mem_reverse.1 ((List.dropWhile_sublist _).subset ((List.takeWhile_sublist _).subset (List.mem_reverse.1 hx)))
  · rw [List.length_reverse]
    exact ((List.takeWhile_sublist _).trans (List.dropWhile_sublist _)).length_le.trans_eq List.length_reverse

theorem basename_basename (path : Bytes) : basename (basename path) = basename path := by
  rcases basename_cases path with hc | hc | ⟨hne, hs, -, -⟩
  · rw [hc]; rfl
  · rw [hc]; rfl
  · exact basename_self hne hs

theorem cstr_fileBname (path : Bytes) : cstr (fileBname path) = fileBname path := by
  refine cstr_of_notMem fun hm => ?_
  unfold fileBname at hm
  rcases basename_cases (cstr path) with hc | hc | ⟨-, -, hsub, -⟩
  · rw [hc] at hm; revert hm; decide
  · rw [hc] at hm; revert hm; decide
  · have := List.mem_takeWhile_imp (hsub hm)
    simp at this

@[simp] theorem fileBname_fileBname (path : Bytes) : fileBname (fileBname path) = fileBname path := by
  rw [fileBname, cstr_fileBname, fileBname, basename_basename]

/-! ## What is left of a path -/

theorem fileCut_cases (path : Bytes) : (cstr path).rdropWhile (· = slash) = [] ∧ fileCut path = cstr path ∨
    (cstr path).rdropWhile (· = slash) ≠ [] ∧ fileCut path = (cstr path).rdropWhile (· = slash) := by
  by_cases hnil : (cstr path).rdropWhile (· = slash) = []
  · exact .inl ⟨hnil, if_pos hnil⟩
  · exact .inr ⟨hnil, if_neg hnil⟩

theorem prefix_fileCut (path : Bytes) : fileCut path <+: cstr path := by
  rcases fileCut_cases path with ⟨-, hcut⟩ | ⟨-, hcut⟩
  · rw [hcut]
  · rw [hcut]
    exact List.rdropWhile_prefix _ _

@[simp] theorem cstr_fileCut (path : Bytes) : cstr (fileCut path) = fileCut path :=
  cstr_of_notMem fun hm => notMem_cstr path ((prefix_fileCut path).subset hm)

@[simp] theorem fileCut_fileCut (path : Bytes) : fileCut (fileCut path) = fileCut path := by
  have hself := cstr_fileCut path
  rcases fileCut_cases path with ⟨hnil, hcut⟩ | ⟨hnil, hcut⟩
  · rw [hcut] at hself ⊢
    exact (if_pos (by rw [hself, hnil])).trans hself
  · have hidem := List.rdropWhile_idempotent (fun x => decide (x = slash)) (cstr path)
    rw [hcut] at hself ⊢
    exact (if_neg (by rw [hself, hidem]; exact hnil)).trans (by rw [hself, hidem])

@[simp] theorem fileBname_fileCut (path : Bytes) : fileBname (fileCut path) = fileBname path := by
  rw [fileBname, fileBname, cstr_fileCut]
  rcases fileCut_cases path with ⟨-, hcut⟩ | ⟨hnil, hcut⟩
  · rw [hcut]
  · have hidem := List.rdropWhile_idempotent (fun x => decide (x = slash)) (cstr path)
    have hne : cstr path ≠ [] := by
      intro he
      rw [he] at hnil
      exact hnil (List.rdropWhile_nil _)
    have htrim : (((cstr path).rdropWhile (· = slash)).reverse.dropWhile (· = slash)).reverse =
        ((cstr path).reverse.dropWhile (· = slash)).reverse := hidem
    rw [hcut, basename, basename, if_neg hnil, if_neg hne, htrim]

theorem fileBname_length (path : Bytes) {m : ℕ} (hl : (fileCut path).length ≤ m) (hm : 1 ≤ m) :
    (fileBname path).length ≤ m := by
  rw [← fileBname_fileCut, fileBname, cstr_fileCut]
  rcases basename_cases (fileCut path) with hc | hc | ⟨-, -, -, hle⟩
  · rw [hc]; exact hm
  · rw [hc]; exact hm
  · exact hle.trans hl

/-! ## GIVEME -/

theorem protoMaker_giveme (h : Host) (s : State) (path : Bytes) (key : Int) {n : ℕ} (hn : n < 2 ^ 16) :
    ∃ g q, protoMaker h s (some path) (some .giveme) key n = .ok ⟨.ok, some g, cInt g.length, s⟩ ∧ g.length = 11 ∧
      parse g = .ok (.ok, q) ∧ MsgType.ofCode q.type = some .giveme ∧ q.fileid = nftpHash (fileBname path) ∧
      q.blockseq.toNat = n := by
  let p : Packet := { Packet.alloc with
    type := MsgType.giveme.code, len := 5 + 4 + 2, fileid := nftpHash (fileBname path),
    blockseq := UInt16.ofNat ((n : Int) % 2 ^ 16).toNat }
  have hsized : p.Sized .giveme := ⟨rfl, rfl, nofun, by simp⟩
  have hseq : p.blockseq.toNat = n := by
    show (UInt16.ofNat ((n : Int) % 2 ^ 16).toNat).toNat = n
    have he : ((n : Int) % 2 ^ 16).toNat = n := by omega
    rw [he]
    exact UInt16.toNat_ofNat_of_lt' hn
  obtain ⟨q, hq, htype, hid, hblk⟩ := parse_wire hsized (show 11 < 2 ^ 31 by decide)
  refine ⟨p.wire .giveme, q, ?_, wire_length hsized.carries, hq, by rw [htype]; rfl, hid, by rw [hblk, hseq]⟩
  have hneg : ¬ (0 > (n : Int)) := by omega
  simp only [protoMaker, if_neg hneg]
  rw [wire_length hsized.carries]
  exact encodeReply_eq s (t := .giveme) rfl trivial

/-! ## FILE and END -/

theorem fileReadblk_good {d : Disk} {blksz : UInt32} {path : Path} {k : ℕ} (hd : d path = some F) (hb : blksz ≠ 0)
    (hk : k ≤ F.length / blksz.toNat) (hk16 : k < 2 ^ 16) (hoff : k * blksz.toNat < 2 ^ 32) :
    fileReadblk .done d blksz path k = .ok (.ok, (F.drop (k * blksz.toNat)).take blksz.toNat) := by
  have hpos : 0 < blksz.toNat := by
    rw [Nat.pos_iff_ne_zero]
    exact fun h0 => hb (UInt32.toNat_inj.1 h0)
  have hdm := Nat.div_add_mod F.length blksz.toNat
  have hlt := Nat.mod_lt F.length hpos
  have hb32 := blksz.toNat_lt
  rw [Nat.mul_comm] at hdm
  have hoff' : (((k : Int) * blksz.toNat) % 2 ^ 32).toNat = k * blksz.toNat := by
    rw [← Nat.cast_mul]
    omega
  have hk' : sizeT k = k := sizeT_natCast (by omega)
  have hle : k * blksz.toNat ≤ F.length := (Nat.mul_le_mul_right _ hk).trans (by omega)
  unfold fileReadblk
  simp only [hd, reduceCtorEq, if_false, if_neg hb, hoff', hk', if_neg (Nat.not_lt_of_le hk), false_and, false_or]
  rw [if_neg fun h' => Nat.not_lt_of_le hle h'.2]
  by_cases he : k = F.length / blksz.toNat
  · have hrest : F.length - k * blksz.toNat ≤ blksz.toNat := by rw [he]; omega
    have hlen : (F.drop (k * blksz.toNat)).length = F.length - k * blksz.toNat := List.length_drop
    have hreach : ¬ 2 ^ 63 ≤ k * blksz.toNat + (F.length - k * blksz.toNat) := by omega
    rw [if_pos he, List.take_of_length_le (Nat.le_of_eq hlen), List.take_of_length_le (hlen.trans_le hrest),
      if_neg (not_or.2 ⟨fun hne => hne hlen, hreach⟩)]
  · have hnext : (k + 1) * blksz.toNat ≤ F.length / blksz.toNat * blksz.toNat := Nat.mul_le_mul_right _ (by omega)
    have hlen : ((F.drop (k * blksz.toNat)).take blksz.toNat).length = blksz.toNat := by
      rw [List.length_take, List.length_drop]
      rw [Nat.succ_mul] at hnext
      omega
    have hreach : ¬ 2 ^ 63 ≤ k * blksz.toNat + blksz.toNat := by omega
    rw [if_neg he, if_neg (not_or.2 ⟨fun hne => hne hlen, hreach⟩)]

/-- What is read of a file is no more than its `off_t`s reach. -/
theorem fileReadblk_lt {ans : ReadAns} {d : Disk} {blksz : UInt32} {path : Path} {n : Int} {v : Bytes}
    (hread : fileReadblk ans d blksz path n = .ok (.ok, v)) : v.length < 2 ^ 63 := by
  unfold fileReadblk at hread
  cases hd : d path with
  | none =>
    rw [hd] at hread
    cases hread
  | some F =>
    rw [hd] at hread
    simp only at hread
    generalize (if sizeT n = F.length / blksz.toNat then F.length - ((n * blksz.toNat) % 2 ^ 32).toNat
      else blksz.toNat) = b at hread
    split at hread
    · cases hread
    split at hread
    · cases hread
    split at hread
    · cases hread
    split at hread
    · cases hread
    split at hread
    · cases hread
    rename_i hfull
    obtain ⟨-, hfull⟩ := not_or.1 hfull
    obtain ⟨hlen, hreach⟩ := not_or.1 hfull
    cases hread
    rw [not_not.1 hlen]
    omega

/-- The packet of block `n` of the file named `f`, whose content is `v`. -/
def fileOf (t : MsgType) (f : Bytes) (n : Int) (v : Bytes) : Packet :=
  { Packet.alloc with
    type := t.code, len := UInt32.ofNat (5 + 4 + 2 + 4 + v.length), fileid := nftpHash f,
    blockseq := UInt16.ofNat (n % 2 ^ 16).toNat, ctlen := v.length, content := some v }

theorem fileOf_carries {t : MsgType} (ht : t = .file ∨ t = .fin) (f : Bytes) (n : Int) {v : Bytes} (hv : v.length < 2 ^ 63) :
    (fileOf t f n v).Carries t := by
  rcases ht with rfl | rfl
  · exact ⟨rfl, hv⟩
  · exact ⟨rfl, hv⟩

theorem fileOf_length {t : MsgType} (ht : t = .file ∨ t = .fin) (f : Bytes) (n : Int) (v : Bytes) :
    ((fileOf t f n v).wire t).length = 15 + v.length := by
  have hbody : (fileOf t f n v).body t = (fileOf t f n v).body .file := by
    rcases ht with rfl | rfl
    · rfl
    · exact body_fin _
  rw [Packet.wire, hbody, body_file rfl]
  simp only [fileOf, List.length_cons, List.length_append, putU16_length, putU32_length, Option.getD_some]
  omega

theorem fileOf_blockseq {t : MsgType} {f v : Bytes} {k : ℕ} (hk : k < 2 ^ 16) : (fileOf t f k v).blockseq.toNat = k := by
  show (UInt16.ofNat ((k : Int) % 2 ^ 16).toNat).toNat = k
  have he : ((k : Int) % 2 ^ 16).toNat = k := by omega
  rw [he]
  exact UInt16.toNat_ofNat_of_lt' hk

theorem makeFile_read {path : Path} (f : Bytes) {t : MsgType} (ht : t = .file ∨ t = .fin) {n : Int} {v : Bytes} (hn : 0 ≤ n)
    (hread : fileReadblk h.readblk s.fs.disk s.blocksz path n = .ok (.ok, v)) :
    makeFile h s path f t n = .ok ⟨.ok, some ((fileOf t f n v).wire t), cInt ((fileOf t f n v).wire t).length, s⟩ := by
  have hc := fileOf_carries ht f n (fileReadblk_lt hread)
  unfold makeFile
  rw [if_neg (by omega), hread, wire_length hc]
  exact encodeReply_eq s (MsgType.ofCode_code t) hc

theorem makeFile_good {path : Path} (f : Bytes) {t : MsgType} (ht : t = .file ∨ t = .fin) {k : ℕ}
    (hd : s.fs.disk path = some F) (hb : s.blocksz ≠ 0) (hk : k ≤ F.length / s.blocksz.toNat) (hk16 : k < 2 ^ 16)
    (hoff : k * s.blocksz.toNat < 2 ^ 32) : ∃ a,
      makeFile .good s path f t k = .ok ⟨.ok, some a, cInt a.length, s⟩ ∧
      a.length = 15 + ((F.drop (k * s.blocksz.toNat)).take s.blocksz.toNat).length ∧
      (a.length < 2 ^ 31 → ∃ q, parse a = .ok (.ok, q) ∧ MsgType.ofCode q.type = some t ∧ q.fileid = nftpHash f ∧
        q.blockseq.toNat = k ∧ q.content = some ((F.drop (k * s.blocksz.toNat)).take s.blocksz.toNat)) := by
  let v : Bytes := (F.drop (k * s.blocksz.toNat)).take s.blocksz.toNat
  have hlen := fileOf_length ht f k v
  refine ⟨(fileOf t f k v).wire t, ?_, hlen, fun hlt => ?_⟩
  · exact makeFile_read f ht (by omega) (fileReadblk_good hd hb hk hk16 hoff)
  · have hsize : (fileOf t f k v).size t = 15 + v.length := by rcases ht with rfl | rfl <;> rfl
    have hsized : (fileOf t f k v).Sized t := by
      refine ⟨MsgType.ofCode_code t, ?_, fun he => ?_, fun _ => ⟨v, rfl, rfl⟩⟩
      · have h32 : 5 + 4 + 2 + 4 + v.length < 2 ^ 32 := by omega
        rw [hsize]
        exact UInt32.toNat_ofNat_of_lt' h32
      · rcases ht with rfl | rfl <;> cases he
    obtain ⟨q, hq, htype, hsame⟩ := parse_wire hsized (by rw [hsize]; omega)
    have hfields : q.fileid = (fileOf t f k v).fileid ∧ q.blockseq = (fileOf t f k v).blockseq ∧
        q.ctlen = (fileOf t f k v).ctlen ∧ q.content = (fileOf t f k v).content := by
      rcases ht with rfl | rfl <;> exact hsame
    obtain ⟨hid, hblk, -, hcont⟩ := hfields
    exact ⟨q, hq, by rw [htype]; exact MsgType.ofCode_code t, hid, by rw [hblk, fileOf_blockseq hk16], hcont⟩

/-! ## A file offered -/

/-- The sender has sent the HELLO of the file `F` at `path`, whose name is `f`, and keeps the file. -/
structure Offers (S : State) (f : Bytes) (path : Path) (F : Bytes) : Prop where
  sender : S.senderfiles (nftpHash f) = some path
  file : S.fs.disk path = some F
  blocksz : S.blocksz ≠ 0
  blocks : F.length / S.blocksz.toNat + 1 ≤ nftpBlockNum
  trimmed : fileCut path = path
  bname : fileBname path = f
  fits : path.length + 1 ≤ fullpathSize

structure SameOffer (S S' : State) (f : Bytes) (path : Path) : Prop where
  sender : S'.senderfiles (nftpHash f) = S.senderfiles (nftpHash f)
  file : S'.fs.disk path = S.fs.disk path
  blocksz : S'.blocksz = S.blocksz

theorem Offers.same {S' : State} {f : Bytes} {path : Path} (ho : Offers S f path F) (hs : SameOffer S S' f path) :
    Offers S' f path F where
  sender := hs.sender.trans ho.sender
  file := hs.file.trans ho.file
  blocksz := by rw [hs.blocksz]; exact ho.blocksz
  blocks := by rw [hs.blocksz]; exact ho.blocks
  trimmed := ho.trimmed
  bname := ho.bname
  fits := ho.fits

theorem fileBlocks_eq {ans : ReadAns} {d : Disk} {blksz : UInt32} {path : Path} (ho : ans ≠ .noOpen) (hd : d path = some F)
    (hb : blksz ≠ 0) : fileBlocks ans d blksz path = .ok (.ok, F.length / blksz.toNat + 1) := by
  simp only [fileBlocks, fileSize, hd, if_neg ho, ne_eq, not_true_eq_false, if_false, if_neg hb]

/-- A GIVEME is answered with the block of the file stored, in an END if it is the last one; what making that message
returns is not looked at. -/
theorem handleGiveme_read {path : Path} {n : Packet} (hs : S.senderfiles n.fileid = some path) (hc : fileCut path = path)
    (hfits : path.length + 1 ≤ fullpathSize) (ho : h.size ≠ .noOpen) (hd : S.fs.disk path = some F) (hb : S.blocksz ≠ 0) :
    handleGiveme h S n = makeFile h S path (fileBname path)
        (if n.blockseq.toNat = F.length / S.blocksz.toNat then .fin else .file) n.blockseq.toNat >>= fun r =>
      .ok { r with rv := .ok } := by
  have hcopy : strcpyAt fullpathSize 0 path = .ok () := strcpyAt_ok (by omega)
  unfold handleGiveme
  rw [hs]
  simp only [hcopy, bind_ok, fileBlocks_eq ho hd hb, ne_eq, not_true_eq_false, if_false, Nat.add_sub_cancel]
  by_cases he : n.blockseq.toNat = F.length / S.blocksz.toNat
  · simp only [if_pos he, protoMaker, hc, pure_ok]
  · simp only [if_neg he, protoMaker, hc, pure_ok]

/-- **The answer to a GIVEME**: the block asked for, in an END if it is the last one. -/
theorem handleGiveme_good {f : Bytes} {path : Path} {n : Packet} (ho : Offers S f path F) (hid : n.fileid = nftpHash f)
    (hk : n.blockseq.toNat ≤ F.length / S.blocksz.toNat) (hoff : n.blockseq.toNat * S.blocksz.toNat < 2 ^ 32) : ∃ t a,
      (t = .file ∨ t = .fin) ∧ handleGiveme .good S n = .ok ⟨.ok, some a, cInt a.length, S⟩ ∧
      makeFile .good S path f t n.blockseq.toNat = .ok ⟨.ok, some a, cInt a.length, S⟩ := by
  have hgive := handleGiveme_read (h := .good) (n := n) (by rw [hid]; exact ho.sender) ho.trimmed ho.fits (by decide) ho.file
    ho.blocksz
  rw [ho.bname] at hgive
  have hty : (if n.blockseq.toNat = F.length / S.blocksz.toNat then MsgType.fin else MsgType.file) = .file ∨
      (if n.blockseq.toNat = F.length / S.blocksz.toNat then MsgType.fin else MsgType.file) = .fin := by
    split
    · exact .inr rfl
    · exact .inl rfl
  obtain ⟨a, ha, -⟩ := makeFile_good f hty ho.file ho.blocksz hk n.blockseq.toNat_lt hoff
  refine ⟨_, a, hty, ?_, ha⟩
  rw [hgive, ha, bind_ok]

/-! ## HELLO -/

def State.offering (S : State) (f : Bytes) (path : Path) : State :=
  { S with senderfiles := Function.update (htErase S.senderfiles (nftpHash f)) (nftpHash f) (some path) }

/-- A HELLO can be made for the file: it can be read, and is of a number of blocks that fits. -/
structure Sendable (h : Host) (S : State) (path : Path) (F : Bytes) : Prop where
  file : S.fs.disk path = some F
  size : h.size ≠ .noOpen
  blocksz : S.blocksz ≠ 0
  blocks : F.length / S.blocksz.toNat + 1 ≤ nftpBlockNum
  opens : h.hash ≠ .noOpen
  reads : ¬ (h.hash = .short ∧ 0 < F.length)

/-- The HELLO of the file `F`, named `f`. -/
def helloOf (S : State) (f : Bytes) (key : Int) (F : Bytes) : Packet :=
  { Packet.alloc with
    type := MsgType.hello.code, len := UInt32.ofNat (5 + 1 + 2 + 2 + f.length + 4), id := UInt8.ofNat (key % 256).toNat,
    blocks := UInt16.ofNat (F.length / S.blocksz.toNat + 1), fname := some f, namelen := UInt16.ofNat f.length,
    hashcode := nftpHash F }

theorem helloOf_sized {f : Bytes} (S : State) (key : Int) (F : Bytes) (hf : f.length < 2 ^ 16) :
    (helloOf S f key F).Sized .hello ∧ (helloOf S f key F).size .hello = 14 + f.length := by
  have hname : (helloOf S f key F).namelen.toNat = f.length := UInt16.toNat_ofNat_of_lt' hf
  have hsize : (helloOf S f key F).size .hello = 14 + f.length := by
    rw [Packet.size, hname]
    omega
  refine ⟨⟨rfl, ?_, fun _ => ⟨f, rfl, hname.symm⟩, by simp⟩, hsize⟩
  have h32 : 5 + 1 + 2 + 2 + f.length + 4 < 2 ^ 32 := by omega
  have hlen : (helloOf S f key F).len.toNat = 5 + 1 + 2 + 2 + f.length + 4 := UInt32.toNat_ofNat_of_lt' h32
  rw [hsize, hlen]
  omega

theorem protoMaker_makeHello (h : Host) (S : State) (path : Bytes) (key i : Int) :
    protoMaker h S (some path) (some .hello) key i = makeHello h S (fileCut path) (fileBname path) key := rfl

theorem makeHello_sendable {f : Bytes} {path : Path} (key : Int) (hs : Sendable h S path F) :
    makeHello h S path f key = strcpyAt fullpathSize 0 path >>= fun _ =>
      encodeReply (S.offering f path) (helloOf S f key F) := by
  have hsize : fileSize h.size S.fs.disk path = (.ok, F.length) := by simp only [fileSize, hs.file, if_neg hs.size]
  have hhash : fileHash h.hash S.fs.disk path = (.ok, nftpHash F) := by
    rw [fileHash_eq h.hash hs.file, if_neg hs.opens, if_neg hs.reads]
  have hnew : (htErase S.senderfiles (nftpHash f) (nftpHash f)).isSome = false := by
    rw [htErase, Function.update_self]
    rfl
  unfold makeHello
  simp only [hsize, hhash, ne_eq, not_true_eq_false, if_false, if_neg hs.blocksz, if_neg (Nat.not_lt_of_le hs.blocks),
    htInsert, hnew, Bool.false_eq_true]
  rfl

/-- When no HELLO can be made there is none, and nothing has changed. -/
theorem makeHello_refused {f : Bytes} {path : Path} (key : Int) (hs : ∀ F, ¬ Sendable h S path F) :
    makeHello h S path f key = .error .divZero ∨ ∃ rv, rv ≠ .ok ∧ makeHello h S path f key = .ok ⟨rv, none, 0, S⟩ := by
  unfold makeHello
  cases hd : S.fs.disk path with
  | none =>
    right
    simp only [fileSize, hd, ne_eq, reduceCtorEq, not_false_eq_true, if_true]
    exact ⟨.filepath, by decide, rfl⟩
  | some F =>
    by_cases hsize : h.size = .noOpen
    · right
      simp only [fileSize, hd, hsize, if_true, ne_eq, reduceCtorEq, not_false_eq_true]
      exact ⟨.file, by decide, rfl⟩
    simp only [fileSize, hd, if_neg hsize, ne_eq, not_true_eq_false, if_false]
    by_cases hb : S.blocksz = 0
    · exact .inl (if_pos hb)
    rw [if_neg hb]
    by_cases hN : F.length / S.blocksz.toNat + 1 > nftpBlockNum
    · exact .inr ⟨.blocks, by decide, if_pos hN⟩
    rw [if_neg hN, fileHash_eq h.hash hd]
    by_cases ho : h.hash = .noOpen
    · right
      simp only [if_pos ho, reduceCtorEq, not_false_eq_true, if_true]
      exact ⟨.file, by decide, rfl⟩
    by_cases hread : h.hash = .short ∧ 0 < F.length
    · right
      simp only [if_neg ho, if_pos hread, reduceCtorEq, not_false_eq_true, if_true]
      exact ⟨.filerd, by decide, rfl⟩
    exact absurd ⟨hd, hsize, hb, Nat.not_lt.1 hN, ho, hread⟩ (hs F)

/-- **A HELLO made for a file**: it announces the blocks and the hash of the file, which is then offered. -/
theorem makeHello_good {f : Bytes} {path : Path} (key : Int) (hd : S.fs.disk path = some F) (hb : S.blocksz ≠ 0)
    (hN : F.length / S.blocksz.toNat + 1 ≤ nftpBlockNum) (hfits : path.length + 1 ≤ fullpathSize)
    (hf : f.length < 2 ^ 16) : ∃ m q,
      makeHello .good S path f key = .ok ⟨.ok, some m, cInt m.length, S.offering f path⟩ ∧ m.length = 14 + f.length ∧
      parse m = .ok (.ok, q) ∧ MsgType.ofCode q.type = some .hello ∧ q.fname = some f ∧
      q.blocks.toNat = F.length / S.blocksz.toNat + 1 ∧ q.hashcode = nftpHash F := by
  have hs : Sendable .good S path F := ⟨hd, by decide, hb, hN, by decide, fun hread => by cases hread.1⟩
  obtain ⟨hsized, hsize⟩ := helloOf_sized S key F hf
  have hlen : ((helloOf S f key F).wire .hello).length = 14 + f.length := (wire_length hsized.carries).trans hsize
  obtain ⟨q, hq, htype, -, hblocks, -, hfname, hhash⟩ := parse_wire hsized (by rw [hsize]; omega)
  refine ⟨(helloOf S f key F).wire .hello, q, ?_, hlen, hq, by rw [htype]; rfl, hfname, ?_, hhash⟩
  · rw [makeHello_sendable key hs, strcpyAt_ok (by omega), bind_ok, wire_length hsized.carries]
    exact encodeReply_eq (S.offering f path) (t := .hello) rfl hsized.carries
  · rw [hblocks]
    have h16 : F.length / S.blocksz.toNat + 1 < 2 ^ 16 := Nat.lt_succ_of_le hN
    exact UInt16.toNat_ofNat_of_lt' h16

/-- A HELLO is made only for a file one can be made for, at a path that fits. -/
theorem makeHello_ok {f : Bytes} {path : Path} {key : Int} (hr : makeHello h S path f key = .ok r) (hrv : r.rv = .ok) :
    ∃ F, Sendable h S path F ∧ path.length + 1 ≤ fullpathSize := by
  by_contra hno
  have hrefused : ∀ F, ¬ Sendable h S path F := by
    intro F hs
    rw [makeHello_sendable key hs] at hr
    obtain ⟨u, hcopy, -⟩ := bind_eq_ok.1 hr
    exact hno ⟨F, hs, by have := strcpyAt_eq_ok hcopy; omega⟩
  rcases makeHello_refused (f := f) key hrefused with he | ⟨rv, hne, he⟩
  · rw [he] at hr
    cases hr
  · rw [he] at hr
    cases hr
    exact hne hrv

/-- **A HELLO made leaves its file offered.** -/
theorem protoMaker_hello {path : Bytes} {key i : Int} (hr : protoMaker .good S (some path) (some .hello) key i = .ok r)
    (hrv : r.rv = .ok) : ∃ F m q, Offers r.st (fileBname path) (fileCut path) F ∧ S.fs.disk (fileCut path) = some F ∧
      r.st.blocksz = S.blocksz ∧
      r = ⟨.ok, some m, cInt m.length, S.offering (fileBname path) (fileCut path)⟩ ∧
      parse m = .ok (.ok, q) ∧ MsgType.ofCode q.type = some .hello ∧ q.name = fileBname path ∧
      q.blocks.toNat = F.length / S.blocksz.toNat + 1 ∧ q.hashcode = nftpHash F := by
  have hr' : makeHello .good S (fileCut path) (fileBname path) key = .ok r := by
    rw [← hr, protoMaker_makeHello]
  obtain ⟨F, ⟨hd, -, hb, hN, -, -⟩, hfits⟩ := makeHello_ok hr' hrv
  have hf : (fileBname path).length < 2 ^ 16 := by
    have hle : (fileBname path).length ≤ fullpathSize := fileBname_length path (Nat.le_of_succ_le hfits) (by decide)
    have : fullpathSize = 320 := rfl
    omega
  obtain ⟨m, q, hmake, -, hq, ht, hname, hblocks, hhash⟩ := makeHello_good key hd hb hN hfits hf
  rw [hmake] at hr'
  cases hr'
  refine ⟨F, m, q, ⟨?_, hd, hb, hN, fileCut_fileCut path, fileBname_fileCut path, hfits⟩, hd, rfl, rfl, hq, ht, ?_, hblocks, hhash⟩
  · exact Function.update_self ..
  · rw [Packet.name, hname]
    exact cstr_fileBname path

end Nftp
