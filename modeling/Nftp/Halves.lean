import Nftp.Frame
import Nftp.Giveme
import Nftp.Simulation
/-!
# Halves — an endpoint is a sender and a receiver side by side

What a receiver does has nothing to do with the files offered, and what a sender does depends on the block size, the files
offered and their content only.  So as long as the receiver does not write a file that is offered, a run of the endpoint
is a run of its sender and a run of its receiver: each call is answered by one half as it was by the whole.
-/
namespace Nftp

open Lib

variable {h : Host} {s s' u v : State} {n : Packet} {msg : Bytes} {r : Ret} {g : UInt32 → Option Bytes} {α : Type}

/-! ## The receiver -/

/-- The state with other files offered. -/
def State.sending (s : State) (g : UInt32 → Option Bytes) : State := { s with senderfiles := g }

/-- The same answer, but for the files offered. -/
def Ret.Sending (g : UInt32 → Option Bytes) (x y : Ret) : Prop := y = { x with st := x.st.sending g }

/-- The same result, but for the files offered. -/
def Sending (g : UInt32 → Option Bytes) (x y : α × State) : Prop := y = (x.1, x.2.sending g)

/-- What leaves the tables alone leaves the files offered alone. -/
theorem Framed.sending {x y : Except Fault (α × State)} (hx : Framed s.files s.senderfiles x x)
    (hxy : Framed s.files g x y) : Alike Eq (Sending g) x y := by
  cases hxy with
  | error he => exact .error he
  | ok hab =>
    rename_i a b
    cases hx with
    | ok haa =>
      refine .ok ?_
      have hfiles : a.2.files = s.files := congrArg (fun z => z.2.files) haa
      rw [hab, ← hfiles]
      rfl

theorem encodeReply_sending (p : Packet) :
    Alike Eq (Ret.Sending g) (encodeReply s p) (encodeReply (s.sending g) p) := by
  refine Alike.bind_same (x := encode p) ?_
  rintro ⟨rv, v, alen⟩ -
  have hsame : Ret.Sending g ⟨.ok, some v, cInt alen, s⟩ ⟨.ok, some v, cInt alen, s.sending g⟩ := by
    simp only [Ret.Sending]
  exact Alike.ite (fun _ => .ok rfl) fun _ => .ok hsame

theorem bindFcb_sending (fname : Bytes) : Alike Eq (Sending g) (bindFcb s fname) (bindFcb (s.sending g) fname) :=
  Framed.sending (bindFcb_framed (s := s) fname) (bindFcb_framed fname)

theorem handleHello_sending (h : Host) (n : Packet) :
    Alike Eq (Ret.Sending g) (handleHello h s n) (handleHello h (s.sending g) n) := by
  unfold handleHello
  refine Alike.ite (fun _ => .ok rfl) fun _ => ?_
  refine (bindFcb_sending n.name).bind ?_
  rintro ⟨fcb, s₁⟩ - rfl
  refine Alike.bind_same (x := pickName s₁ n.name) ?_
  rintro wfname -
  cases wfname with
  | none => exact .error rfl
  | some wfname =>
    refine Alike.bind_same (x := partPath s₁.recvdir wfname) ?_
    rintro fullpath -
    refine Alike.ite (fun _ => .ok rfl) fun _ => Alike.ite (fun _ => .ok rfl) fun _ => ?_
    refine (encodeReply_sending _).bind ?_
    rintro r - rfl
    exact .ok rfl

theorem framed_sending {x y : Except Fault State} (hx : Alike Eq (fun a b => b = a.withTables s.files s.senderfiles) x x)
    (hxy : Alike Eq (fun a b => b = a.withTables s.files g) x y) : Alike Eq (fun a b => b = a.sending g) x y := by
  cases hxy with
  | error he => exact .error he
  | ok hab =>
    rename_i a b
    cases hx with
    | ok haa =>
      have hfiles := congrArg State.files haa
      rw [withTables_files] at hfiles
      refine .ok ?_
      rw [hab, ← hfiles]
      rfl

theorem runCb_sending (s : State) (c : Nctx) :
    Alike Eq (fun a b => b = a.sending g) (runCb s c) (runCb (s.sending g) c) :=
  framed_sending (runCb_framed (s := s) c) (runCb_framed c)

theorem dropCb_sending (s : State) (c : Nctx) :
    Alike Eq (fun a b => b = a.sending g) (dropCb s c) (dropCb (s.sending g) c) :=
  framed_sending (dropCb_framed (s := s) c) (dropCb_framed c)

theorem finish_sending (h : Host) (c : Nctx) (q : Path) :
    Alike Eq (Ret.Sending g) (finish h s c q) (finish h (s.sending g) c q) := by
  have hdir : (s.sending g).recvdir = s.recvdir := rfl
  have hfs : (s.sending g).fs = s.fs := rfl
  unfold finish
  rw [hdir, hfs]
  refine Alike.bind_same (x := fileFullpath s.recvdir c.wfname) ?_
  rintro q₂ -
  generalize fileRename h.rename s.fs q q₂ = x
  obtain ⟨rv, fs⟩ := x
  refine Alike.ite (fun _ => .ok rfl) fun _ => ?_
  generalize fileHash h.hash fs.disk q₂ = x
  obtain ⟨rv', hashcode⟩ := x
  refine Alike.ite (fun _ => .ok ?_) fun _ => Alike.ite (fun _ => .ok ?_) fun _ => ?_
  · simp only [Ret.Sending, State.sending]
  · simp only [Ret.Sending, State.sending]
  refine (runCb_sending _ c).bind ?_
  rintro s₁ - rfl
  refine .ok ?_
  simp only [Ret.Sending, State.sending]

theorem handleFile_sending (h : Host) (n : Packet) :
    Alike Eq (Ret.Sending g) (handleFile h s n) (handleFile h (s.sending g) n) := by
  have hsame : (s.sending g).files = s.files := rfl
  unfold handleFile
  rw [hsame]
  cases hc : s.files n.fileid with
  | none => exact .ok rfl
  | some c =>
    refine Alike.bind_same (x := partPath s.recvdir c.wfname) ?_
    rintro q -
    refine Alike.bind_same (x := storeBlock h q c s.fs n) ?_
    rintro ⟨rv, c₁, fs⟩ -
    exact Alike.ite (fun _ => .ok rfl) fun _ => Alike.ite (fun _ => finish_sending h c₁ q) fun _ => .ok rfl

theorem protoRecvStop_sending (h : Host) (fname : Bytes) :
    Alike Eq (Sending g) (protoRecvStop h s fname) (protoRecvStop h (s.sending g) fname) := by
  have hsame : (s.sending g).files = s.files := rfl
  unfold protoRecvStop
  dsimp only
  rw [hsame]
  cases hc : s.files (nftpHash (fileBname fname)) with
  | none => exact .ok rfl
  | some c =>
    refine Alike.bind_same (x := partPath s.recvdir c.wfname) ?_
    rintro q -
    refine Alike.ite (fun _ => .ok rfl) fun _ => ?_
    refine (dropCb_sending _ c).bind ?_
    rintro s₁ - rfl
    exact .ok rfl

/-- A message that asks for a block of a file offered. -/
def Packet.Asks (n : Packet) : Prop := MsgType.ofCode n.type = some .giveme

theorem receive_sending (h : Host) (msg : Bytes) (hn : ∀ n, parse msg = .ok (.ok, n) → ¬ n.Asks) :
    Alike Eq (Ret.Sending g) (receive h s msg) (receive h (s.sending g) msg) := by
  unfold receive protoHandler
  refine Alike.bind_same ?_
  rintro ⟨rv, n⟩ hp
  by_cases hrv : rv = .ok
  · subst hrv
    have hasks := hn n hp
    simp only [ne_eq, not_true_eq_false, if_false]
    unfold dispatch
    cases ht : MsgType.ofCode n.type with
    | none => exact .ok rfl
    | some t =>
      cases t with
      | hello => exact handleHello_sending h n
      | ack => exact .ok rfl
      | file => exact handleFile_sending h n
      | fin => exact handleFile_sending h n
      | giveme => exact absurd ht hasks
  · simp only [ne_eq, hrv, not_false_eq_true, if_true]
    exact .ok rfl

/-! ## The calls of the two halves -/

/-- The sender's calls: a message made, a message that asks for a block. -/
def Event.Sends : Event → Prop
  | .msg _ m => ∃ n, parse m = .ok (.ok, n) ∧ n.Asks
  | .maker .. => True
  | _ => False

/-- What both halves see: the settings, and what others do to the disk. -/
def Event.Common : Event → Prop
  | .setRecvdir _ => True
  | .setBlocksz _ => True
  | .disk _ => True
  | _ => False

/-- A code put into an answer. -/
theorem coded_sending {x y : Except Fault (Rv × State)} (hxy : Alike Eq (Sending g) x y) :
    Alike Eq (Ret.Sending g) (x >>= fun z => .ok ⟨z.1, none, 0, z.2⟩) (y >>= fun z => .ok ⟨z.1, none, 0, z.2⟩) := by
  refine hxy.bind ?_
  rintro z - rfl
  exact .ok rfl

/-- **A call that is not the sender's** is answered alike, whatever files are offered, and leaves these alone. -/
theorem call_sending {e : Event} (he : ¬ e.Sends) : Alike Eq (Ret.Sending g) (s.call e) ((s.sending g).call e) := by
  cases e with
  | msg h m => exact receive_sending h m fun n hp hn => he ⟨n, hp, hn⟩
  | register fname cb arg =>
    exact coded_sending (Framed.sending (protoRegister_framed (s := s) fname cb arg) (protoRegister_framed fname cb arg))
  | unregister fname =>
    exact coded_sending (Framed.sending (protoUnregister_framed (s := s) fname) (protoUnregister_framed fname))
  | recvStop h fname => exact coded_sending (protoRecvStop_sending h fname)
  | maker h fpath t key i => exact absurd trivial he
  | setRecvdir dir => exact .ok rfl
  | setBlocksz blksz => exact .ok rfl
  | disk d => exact .ok rfl

/-! ## The sender -/

/-- The second state has the block size and the files offered of the first one, and these files on its disk. -/
structure Serves (P : Path → Prop) (s u : State) : Prop where
  blocksz : u.blocksz = s.blocksz
  senderfiles : u.senderfiles = s.senderfiles
  disk : ∀ q, P q → u.fs.disk q = s.fs.disk q

/-- The same answer, and the same files offered after it. -/
def Ret.Serving (u : State) (x y : Ret) : Prop := y = { x with st := u.sending x.st.senderfiles }

variable {P : Path → Prop}

theorem fileSize_congr {d d' : Disk} {q : Path} (hd : d' q = d q) (ans : ReadAns) : fileSize ans d' q = fileSize ans d q := by
  simp only [fileSize, hd]

theorem fileHash_congr {d d' : Disk} {q : Path} (hd : d' q = d q) (ans : ReadAns) : fileHash ans d' q = fileHash ans d q := by
  simp only [fileHash, hd]

theorem fileReadblk_congr {d d' : Disk} {q : Path} (hd : d' q = d q) (ans : ReadAns) (blocksz : UInt32) (i : Int) :
    fileReadblk ans d' blocksz q i = fileReadblk ans d blocksz q i := by
  simp only [fileReadblk, hd]

theorem Ret.serving_still (hs : u.senderfiles = s.senderfiles) (rv : Rv) (rmsg : Option Bytes) (rlen : Int) :
    Ret.Serving u ⟨rv, rmsg, rlen, s⟩ ⟨rv, rmsg, rlen, u⟩ := by
  have hsame : u.sending s.senderfiles = u := by rw [← hs]; rfl
  simp only [Ret.Serving, hsame]

theorem encodeReply_serving (hs : u.senderfiles = s.senderfiles) (p : Packet) :
    Alike Eq (Ret.Serving u) (encodeReply s p) (encodeReply u p) := by
  refine Alike.bind_same (x := encode p) ?_
  rintro ⟨rv, v, alen⟩ -
  exact Alike.ite (fun _ => .ok (Ret.serving_still hs ..)) fun _ => .ok (Ret.serving_still hs ..)

theorem makeFile_serving (hs : Serves P s u) (h : Host) {q : Path} (hq : P q) (fname : Bytes) (t : MsgType) (i : Int) :
    Alike Eq (Ret.Serving u) (makeFile h s q fname t i) (makeFile h u q fname t i) := by
  have hstill := Ret.serving_still hs.senderfiles
  unfold makeFile
  refine Alike.ite (fun _ => .ok (hstill ..)) fun _ => ?_
  rw [hs.blocksz, fileReadblk_congr (hs.disk q hq)]
  refine Alike.bind_same ?_
  rintro ⟨rv, v⟩ -
  exact Alike.ite (fun _ => .ok (hstill ..)) fun _ => encodeReply_serving hs.senderfiles _

theorem makeHello_serving (hs : Serves P s u) (h : Host) {q : Path} (hq : P q) (fname : Bytes) (key : Int) :
    Alike Eq (Ret.Serving u) (makeHello h s q fname key) (makeHello h u q fname key) := by
  have hstill := Ret.serving_still hs.senderfiles
  unfold makeHello
  rw [fileSize_congr (hs.disk q hq), fileHash_congr (hs.disk q hq), hs.blocksz, hs.senderfiles]
  generalize fileSize h.size s.fs.disk q = x
  obtain ⟨rv, len⟩ := x
  refine Alike.ite (fun _ => .ok (hstill ..)) fun _ => Alike.ite (fun _ => .error rfl) fun _ => ?_
  refine Alike.ite (fun _ => .ok (hstill ..)) fun _ => ?_
  generalize fileHash h.hash s.fs.disk q = x
  obtain ⟨rv', hashcode⟩ := x
  refine Alike.ite (fun _ => .ok (hstill ..)) fun _ => ?_
  refine Alike.bind_same (x := strcpyAt fullpathSize 0 q) ?_
  rintro ⟨⟩ -
  generalize htInsert (htErase s.senderfiles (nftpHash fname)) (nftpHash fname) q = x
  obtain ⟨code, offers⟩ := x
  refine Alike.ite (fun _ => .ok ?_) fun _ => ?_
  · have hsame : u.sending s.senderfiles = u := by rw [← hs.senderfiles]; rfl
    simp only [Ret.Serving, hsame]
  · have hu : ({ u with blocksz := s.blocksz, senderfiles := offers } : State) = u.sending offers := by
      rw [← hs.blocksz]
      rfl
    show Alike Eq _ _ (encodeReply { u with blocksz := s.blocksz, senderfiles := offers } _)
    rw [hu]
    exact encodeReply_serving (s := s.sending offers) (u := u.sending offers) rfl _

theorem protoMaker_serving (hs : Serves P s u) (h : Host) {fpath : Option Bytes} (hq : ∀ q, fpath = some q → P (fileCut q))
    (t : Option MsgType) (key i : Int) :
    Alike Eq (Ret.Serving u) (protoMaker h s fpath t key i) (protoMaker h u fpath t key i) := by
  have hstill := Ret.serving_still hs.senderfiles
  cases fpath with
  | none => exact .ok (hstill ..)
  | some q =>
    cases t with
    | none => exact encodeReply_serving hs.senderfiles _
    | some t =>
      cases t with
      | hello => exact makeHello_serving hs h (hq q rfl) _ key
      | ack => exact encodeReply_serving hs.senderfiles _
      | file => exact makeFile_serving hs h (hq q rfl) _ _ _
      | fin => exact makeFile_serving hs h (hq q rfl) _ _ _
      | giveme =>
        exact Alike.ite (fun _ => .ok (hstill ..)) fun _ => encodeReply_serving hs.senderfiles _

/-- The files offered are among those the two states share. -/
def OffersIn (P : Path → Prop) (s : State) : Prop := ∀ key q, s.senderfiles key = some q → P q

theorem handleGiveme_serving (hs : Serves P s u) (ho : SendersOk s) (hP : OffersIn P s) (h : Host) (n : Packet) :
    Alike Eq (Ret.Serving u) (handleGiveme h s n) (handleGiveme h u n) := by
  have hstill := Ret.serving_still hs.senderfiles
  unfold handleGiveme
  rw [hs.senderfiles]
  cases hq : s.senderfiles n.fileid with
  | none => exact .ok (hstill ..)
  | some q =>
    have hPq := hP _ q hq
    refine Alike.bind_same (x := strcpyAt fullpathSize 0 q) ?_
    rintro ⟨⟩ -
    have hblocks : fileBlocks h.size u.fs.disk u.blocksz q = fileBlocks h.size s.fs.disk s.blocksz q := by
      simp only [fileBlocks, fileSize_congr (hs.disk q hPq), hs.blocksz]
    rw [hblocks]
    refine Alike.bind_same ?_
    rintro ⟨rv, blocks⟩ -
    refine Alike.ite (fun _ => .ok (hstill ..)) fun _ => ?_
    refine (protoMaker_serving hs h ?_ _ _ _).bind ?_
    · rintro q' hq'
      cases hq'
      rw [(ho _ q hq).2.1]
      exact hPq
    · rintro r - rfl
      exact .ok rfl

/-- The path a message is made from is among them. -/
def Event.Reads (P : Path → Prop) : Event → Prop
  | .maker _ fpath _ _ _ => ∀ q, fpath = some q → P (fileCut q)
  | _ => True

/-- **A call of the sender's** is answered alike by two states that have the block size and the files offered in common. -/
theorem call_serving {e : Event} (hs : Serves P s u) (ho : SendersOk s) (hP : OffersIn P s) (he : e.Sends) (hr : e.Reads P) :
    Alike Eq (Ret.Serving u) (s.call e) (u.call e) := by
  cases e with
  | msg h m =>
    obtain ⟨n, hp, hn⟩ := he
    show Alike Eq _ (receive h s m) (receive h u m)
    rw [receive_of_parse h s hp, receive_of_parse h u hp, dispatch, dispatch, hn]
    exact handleGiveme_serving hs ho hP h n
  | maker h fpath t key i => exact protoMaker_serving hs h hr t key i
  | _ => exact absurd he id

/-! ## Side by side -/

instance (n : Packet) : Decidable n.Asks := inferInstanceAs (Decidable (MsgType.ofCode n.type = some .giveme))

instance : DecidablePred Event.Sends
  | .msg _ m => inferInstanceAs (Decidable (∃ n, parse m = .ok (.ok, n) ∧ _))
  | .register .. => isFalse id
  | .unregister _ => isFalse id
  | .recvStop .. => isFalse id
  | .maker .. => isTrue trivial
  | .setRecvdir _ => isFalse id
  | .setBlocksz _ => isFalse id
  | .disk _ => isFalse id

instance : DecidablePred Event.Common
  | .msg .. => isFalse id
  | .register .. => isFalse id
  | .unregister _ => isFalse id
  | .recvStop .. => isFalse id
  | .maker .. => isFalse id
  | .setRecvdir _ => isTrue trivial
  | .setBlocksz _ => isTrue trivial
  | .disk _ => isTrue trivial

/-- The receiver does not write the files that are shared. -/
def Event.WritesApart (P : Path → Prop) (s : State) : Event → Prop
  | .msg _ m => ∀ n, parse m = .ok (.ok, n) → ∀ w, Concerns s n w → ¬ P (s.part w) ∧ ¬ P (s.final w)
  | .recvStop _ fname => ∀ c, s.files (nftpHash (fileBname fname)) = some c → ¬ P (s.part c.wfname)
  | _ => True

/-- A call that reads the shared files only for the sender, and does not write them for the receiver. -/
def BesideStep (P : Path → Prop) (s : State) (x : Event × Answer) (s' : State) : Prop :=
  CallStep s x s' ∧ x.1.Reads P ∧ x.1.WritesApart P s

/-- The state `s` is that of the receiver `v`, with the files that the sender `u` offers. -/
structure Halves (P : Path → Prop) (s u v : State) : Prop where
  sender : Serves P s u
  receiver : s = v.sending s.senderfiles

theorem step_sends {e : Event} (hs : Step s e s') (he : e.Sends) : s' = s.sending s'.senderfiles := by
  cases e with
  | msg h m =>
    obtain ⟨r, hr, hs⟩ := bind_eq_ok.1 hs
    cases hs
    obtain ⟨n, hp, hn⟩ := he
    have hstill : r.st = s := by
      rcases receive_kinds hr with ⟨hst, -⟩ | ⟨n', hp', ht, -⟩ | ⟨n', b, hp', hblock, -⟩
      · exact hst
      · rw [hp] at hp'
        cases hp'
        rw [Packet.Asks, ht] at hn
        cases hn
      · rw [hp] at hp'
        cases hp'
        rcases hblock with ht | ht
        · rw [Packet.Asks, ht] at hn
          cases hn
        · rw [Packet.Asks, ht] at hn
          cases hn
    rw [hstill]
    rfl
  | maker h fpath t key i => exact step_maker hs
  | _ => exact absurd he id

theorem step_apart {e : Event} (hi : Inv s) (hs : Step s e s') (he : ¬ e.Sends) (hc : ¬ e.Common) (hsp : e.WritesApart P s) :
    s'.blocksz = s.blocksz ∧ ∀ q, P q → s'.fs.disk q = s.fs.disk q := by
  cases e with
  | msg h m =>
    obtain ⟨r, hr, hs⟩ := bind_eq_ok.1 hs
    cases hs
    rcases receive_effect hi hr with hst | ⟨n, key, hp, -, heff⟩
    · rw [hst]
      exact ⟨rfl, fun _ _ => rfl⟩
    · refine ⟨heff.blocksz, fun q hq => heff.disk q fun w hw => ?_⟩
      obtain ⟨hpart, hfinal⟩ := hsp n hp w hw
      exact ⟨fun h => hpart (h ▸ hq), fun h => hfinal (h ▸ hq)⟩
  | register fname cb arg =>
    obtain ⟨-, -, hs', -⟩ := step_register hi.reg hs
    rw [hs']
    exact ⟨rfl, fun _ _ => rfl⟩
  | unregister fname =>
    obtain ⟨-, -, hs', -⟩ := step_unregister hi.reg hs
    rw [hs']
    exact ⟨rfl, fun _ _ => rfl⟩
  | recvStop h fname =>
    obtain ⟨rv, hr⟩ := step_recvStop hs
    rcases recvStop_cases hi.reg hr with ⟨-, -, rfl⟩ | ⟨c, hcs, -, ⟨-, -, rfl⟩ | ⟨-, -, -, -, -, hs', -⟩⟩
    · exact ⟨rfl, fun _ _ => rfl⟩
    · exact ⟨rfl, fun _ _ => rfl⟩
    · rw [hs']
      refine ⟨rfl, fun q hq => Function.update_of_ne ?_ _ _⟩
      rintro rfl
      exact hsp c hcs hq
  | maker h fpath t key i => exact absurd trivial he
  | _ => exact absurd trivial hc

theorem OffersIn.same (hP : OffersIn P s) (hs : s'.senderfiles = s.senderfiles) : OffersIn P s' := by
  unfold OffersIn
  rw [hs]
  exact hP

theorem protoMaker_offers {fpath : Option Bytes} {t : Option MsgType} {key i : Int} (hP : OffersIn P s)
    (hq : ∀ q, fpath = some q → P (fileCut q)) (hr : protoMaker h s fpath t key i = .ok r) : OffersIn P r.st := by
  by_cases ht : t = some .hello
  swap
  · rw [protoMaker_still ht hr]
    exact hP
  rw [ht] at hr
  cases fpath with
  | none =>
    cases hr
    exact hP
  | some fpath =>
    rw [protoMaker_makeHello] at hr
    by_cases hs : ∃ F, Sendable h s (fileCut fpath) F
    · obtain ⟨F, hs⟩ := hs
      rw [makeHello_sendable key hs] at hr
      obtain ⟨-, -, hr⟩ := bind_eq_ok.1 hr
      rw [encodeReply_state hr]
      intro k q hk
      simp only [State.offering, htErase] at hk
      by_cases hkey : k = nftpHash (fileBname fpath)
      · rw [hkey, Function.update_self] at hk
        cases hk
        exact hq fpath rfl
      · rw [Function.update_of_ne hkey, Function.update_of_ne hkey] at hk
        exact hP k q hk
    · rcases makeHello_refused (f := fileBname fpath) key (fun F hF => hs ⟨F, hF⟩) with he | ⟨rv, -, he⟩
      · rw [he] at hr
        cases hr
      · rw [he] at hr
        cases hr
        exact hP

/-- What a call of the sender's leaves is offered from the shared files. -/
theorem step_offers {e : Event} (hP : OffersIn P s) (hr : e.Reads P) (he : e.Sends) (hs : Step s e s') : OffersIn P s' := by
  cases e with
  | msg h m =>
    obtain ⟨r, hrun, hs⟩ := bind_eq_ok.1 hs
    cases hs
    rcases receive_cases hrun with ⟨rv, n, -, -, rfl⟩ | ⟨n, hp, hd⟩
    · exact hP
    · obtain ⟨n', hp', hn⟩ := he
      rw [hp] at hp'
      cases hp'
      rw [dispatch, hn] at hd
      rw [handleGiveme_state hd]
      exact hP
  | maker h fpath t key i =>
    obtain ⟨r, hrun, hs⟩ := bind_eq_ok.1 hs
    cases hs
    exact protoMaker_offers hP hr hrun
  | _ => exact absurd he id

/-- The calls of a run that concern the sender. -/
def Event.OfSender (e : Event) : Prop := e.Sends ∨ e.Common

/-- The calls of a run that concern the receiver. -/
def Event.OfReceiver (e : Event) : Prop := ¬ e.Sends

instance : DecidablePred Event.OfSender := fun e => inferInstanceAs (Decidable (e.Sends ∨ e.Common))
instance : DecidablePred Event.OfReceiver := fun e => inferInstanceAs (Decidable (¬ e.Sends))

/-- A state that keeps the invariants of a run of the endpoint, and offers shared files only. -/
structure Shares (P : Path → Prop) (s : State) : Prop where
  inv : Inv s
  senders : SendersOk s
  offers : OffersIn P s

/-- **One call of the endpoint** is a call of the half it concerns, or of both. -/
theorem Halves.step {x : Event × Answer} (hi : Shares P s) (hh : Halves P s u v) (hs : BesideStep P s x s') :
    ∃ u' v', Run CallStep u ([x].filter (·.1.OfSender)) u' ∧ Run CallStep v ([x].filter (·.1.OfReceiver)) v' ∧
      Shares P s' ∧ Halves P s' u' v' := by
  obtain ⟨e, rv, rmsg, rlen⟩ := x
  obtain ⟨hcall, hreads, hapart⟩ := hs
  have hstep : Step s e s' := step_iff_call.2 ⟨_, hcall⟩
  have hinv := step_inv hi.inv hstep
  have hsenders := step_senders hi.inv hi.senders hstep
  by_cases hsends : e.Sends
  · -- the sender answers, and other files are offered beside the receiver
    obtain ⟨r', hr', hans⟩ := (call_serving hh.sender hi.senders hi.offers hsends hreads).of_ok hcall
    cases hans
    have hst := step_sends hstep hsends
    refine ⟨u.sending s'.senderfiles, v, ?_, ?_, ⟨hinv, hsenders, step_offers hi.offers hreads hsends hstep⟩,
      ⟨⟨?_, rfl, fun q hq => ?_⟩, ?_⟩⟩
    · rw [List.filter_cons_of_pos (by exact decide_eq_true (Or.inl hsends))]
      exact .single hr'
    · rw [List.filter_cons_of_neg (by exact fun hx => of_decide_eq_true hx hsends)]
      exact .refl
    · rw [hst]
      exact hh.sender.blocksz
    · rw [hst]
      exact hh.sender.disk q hq
    · have hv := hh.receiver
      generalize s.senderfiles = g at hv
      rw [hst, hv]
      rfl
  -- the receiver answers, whatever is offered beside it
  have hv : Alike Eq (Ret.Sending s.senderfiles) (v.call e) (s.call e) := by
    have hbeside := call_sending (s := v) (g := s.senderfiles) hsends
    rwa [← hh.receiver] at hbeside
  obtain ⟨⟨rv', rmsg', rlen', v'⟩, hr', hans⟩ := hv.ok_of hcall
  cases hans
  have hoffers : OffersIn P (v'.sending s.senderfiles) := hi.offers.same rfl
  by_cases hcommon : e.Common
  · obtain ⟨u', hu, hserves⟩ : ∃ u', u.call e = .ok ⟨rv, rmsg, rlen, u'⟩ ∧ Serves P (v'.sending s.senderfiles) u' := by
      have hblocksz : s.blocksz = v.blocksz := (congrArg State.blocksz hh.receiver).trans rfl
      have hfs : s.fs = v.fs := (congrArg State.fs hh.receiver).trans rfl
      have hdisk : ∀ q, P q → u.fs.disk q = v.fs.disk q := fun q hq => by rw [hh.sender.disk q hq, hfs]
      cases e with
      | setRecvdir dir =>
        cases hr'
        exact ⟨setRecvdir u dir, rfl, hh.sender.blocksz.trans hblocksz, hh.sender.senderfiles, hdisk⟩
      | setBlocksz blksz =>
        cases hr'
        exact ⟨setBlocksz u blksz, rfl, rfl, hh.sender.senderfiles, hdisk⟩
      | disk d =>
        cases hr'
        exact ⟨{ u with fs := { u.fs with disk := d } }, rfl, hh.sender.blocksz.trans hblocksz, hh.sender.senderfiles,
          fun _ _ => rfl⟩
      | _ => exact absurd hcommon id
    refine ⟨u', v', ?_, ?_, ⟨hinv, hsenders, hoffers⟩, ⟨hserves, rfl⟩⟩
    · rw [List.filter_cons_of_pos (by exact decide_eq_true (Or.inr hcommon))]
      exact .single hu
    · rw [List.filter_cons_of_pos (by exact decide_eq_true hsends)]
      exact .single hr'
  · obtain ⟨hblocksz, hdisk⟩ := step_apart hi.inv hstep hsends hcommon hapart
    refine ⟨u, v', ?_, ?_, ⟨hinv, hsenders, hoffers⟩, ⟨⟨?_, hh.sender.senderfiles, fun q hq => ?_⟩, rfl⟩⟩
    · rw [List.filter_cons_of_neg (by exact fun hx => (of_decide_eq_true hx).elim hsends hcommon)]
      exact .refl
    · rw [List.filter_cons_of_pos (by exact decide_eq_true hsends)]
      exact .single hr'
    · exact hh.sender.blocksz.trans hblocksz.symm
    · exact (hh.sender.disk q hq).trans (hdisk q hq).symm

theorem Halves.run {es : List (Event × Answer)} (hi : Shares P s) (hrun : Run (BesideStep P) s es s') :
    ∃ u v, Run CallStep s (es.filter (·.1.OfSender)) u ∧ Run CallStep s (es.filter (·.1.OfReceiver)) v ∧ Shares P s' ∧
      Halves P s' u v := by
  refine Run.history (I := fun es s' => ∃ u v, Run CallStep s (es.filter (·.1.OfSender)) u ∧
    Run CallStep s (es.filter (·.1.OfReceiver)) v ∧ Shares P s' ∧ Halves P s' u v)
    ⟨s, s, .refl, .refl, hi, ⟨⟨rfl, rfl, fun _ _ => rfl⟩, rfl⟩⟩ ?_ hrun
  rintro es s₁ x s₂ ⟨u, v, hu, hv, hi, hh⟩ hs
  obtain ⟨u', v', hu', hv', hi', hh'⟩ := hh.step hi hs
  refine ⟨u', v', ?_, ?_, hi', hh'⟩
  · rw [List.filter_append]
    exact hu.append hu'
  · rw [List.filter_append]
    exact hv.append hv'

/-- **An endpoint is a sender and a receiver side by side.**  From any state of the program, a run whose receiver does not
write the files its sender reads is a run of the sender and a run of the receiver, each answered as the whole was.  What the
receiver has at the end is all there is but for the files offered, which are the sender's; and the next call fails for the
half it concerns as it does for the whole. -/
theorem side_by_side (hl : Live s) (hP : OffersIn P s) {es : List (Event × Answer)} (hrun : Run (BesideStep P) s es s') :
    ∃ u v, Run CallStep s (es.filter (·.1.OfSender)) u ∧ Run CallStep s (es.filter (·.1.OfReceiver)) v ∧
      s' = v.sending u.senderfiles ∧ u.blocksz = s'.blocksz ∧ (∀ q, P q → u.fs.disk q = s'.fs.disk q) ∧
      ∀ e : Event, e.Reads P → ∀ f, s'.call e = .error f ↔ (if e.Sends then u else v).call e = .error f := by
  obtain ⟨u, v, hu, hv, hi, hh⟩ := Halves.run ⟨hl.inv, hl.senders, hP⟩ hrun
  refine ⟨u, v, hu, hv, ?_, hh.sender.blocksz, hh.sender.disk, fun e hreads f => ?_⟩
  · rw [hh.sender.senderfiles]
    exact hh.receiver
  · by_cases hsends : e.Sends
    · rw [if_pos hsends]
      exact (call_serving hh.sender hi.senders hi.offers hsends hreads).error_iff
    · rw [if_neg hsends]
      have hbeside := call_sending (s := v) (g := s'.senderfiles) hsends
      rw [← hh.receiver] at hbeside
      exact hbeside.error_iff.symm

/-- A file is offered, and another one is announced by a HELLO. -/
theorem side_by_side_two : ∃ (s s' u v : State) (a b : Answer),
    Run CallStep s [(.maker .good (some [0x67]) (some .hello) 0 0, a)] u ∧
    Run CallStep s [(.msg .good (helloBytes 0 1 [0x66] 0), b)] v ∧ s' = v.sending u.senderfiles ∧
    (s'.senderfiles (nftpHash [0x67])).isSome ∧ (s'.files (nftpHash [0x66])).isSome := by
  obtain ⟨s₀, s₁, hb, hrun, hd, ⟨rv, rmsg, rlen, s₂⟩, hr, hsends, hfiles⟩ :=
    trace_run none 2 { disk := fun q => if q = [0x67] then some [1, 2, 3] else none, ops := [] }
      [.maker .good (some [0x67]) (some .hello) 0 0] (fun s => s.fs.disk [0x67] = some [1, 2, 3] ∧
        ∃ r, s.call (.msg .good (helloBytes 0 1 [0x66] 0)) = .ok r ∧ (r.st.senderfiles (nftpHash [0x67])).isSome ∧
          (r.st.files (nftpHash [0x66])).isSome) (by decide +kernel)
  obtain ⟨n, hp, ht, -⟩ := parse_helloBytes 0 1 0 (show [0x66].length < 2 ^ 16 by decide) rfl
  obtain ⟨a, hmake⟩ := step_iff_call.1 (run_single_iff.1 hrun)
  have hP : OffersIn (· = [0x67]) s₀ := by
    intro key q hq
    rw [(booted_tables hb key).2] at hq
    cases hq
  have hreads : Event.Reads (· = [0x67]) (.maker .good (some [0x67]) (some .hello) 0 0) := by
    intro q hq
    cases hq
    rfl
  have hapart : Event.WritesApart (· = [0x67]) s₁ (.msg .good (helloBytes 0 1 [0x66] 0)) := by
    intro n' hp' w hw
    rw [hp] at hp'
    cases hp'
    rw [concerns_hello ht] at hw
    obtain ⟨-, hfree⟩ := pickName_ok hw
    constructor
    · intro hpart
      have hlen := congrArg List.length hpart
      simp [State.part, dotPart] at hlen
      omega
    · intro hfinal
      rw [hfinal, hd] at hfree
      cases hfree
  have hboth : Run (BesideStep (· = [0x67])) s₀ [(.maker .good (some [0x67]) (some .hello) 0 0, a),
      (.msg .good (helloBytes 0 1 [0x66] 0), ⟨rv, rmsg, rlen⟩)] s₂ :=
    (Run.single ⟨hmake, hreads, trivial⟩).append (.single ⟨hr, trivial, hapart⟩)
  obtain ⟨u, v, hu, hv, hs, -⟩ := side_by_side ⟨s₀, [], hb, .refl⟩ hP hboth
  have hmaker : Event.Sends (.maker .good (some [0x67]) (some .hello) 0 0) := trivial
  have hhello : ¬ Event.Sends (.msg .good (helloBytes 0 1 [0x66] 0)) := by decide +kernel
  rw [List.filter_cons_of_pos (by exact decide_eq_true (Or.inl hmaker)),
    List.filter_cons_of_neg (by exact fun hx => (of_decide_eq_true hx).elim hhello id), List.filter_nil] at hu
  rw [List.filter_cons_of_neg (by exact fun hx => of_decide_eq_true hx hmaker),
    List.filter_cons_of_pos (by exact decide_eq_true hhello), List.filter_nil] at hv
  exact ⟨s₀, s₂, u, v, _, _, hu, hv, hs, hsends, hfiles⟩

end Nftp
