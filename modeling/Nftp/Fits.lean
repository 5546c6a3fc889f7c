import Nftp.Avoid
import Nftp.Giveme
/-!
# Fits — the copies into fixed buffers

The copies of names and paths check nothing.  `Event.Fits` says of a call what its copies need: for a HELLO, the name its
file will be saved under; for a block or a stop, the name its transfer is saved under; for a HELLO made, the path of the
file.  A name that fitted when its HELLO came fits as long as the receive directory's path does not grow.
-/
namespace Nftp

open Lib

variable {h : Host} {s s' : State} {n : Packet} {msg : Bytes} {r : Ret} {dir : Option Bytes} {f w : Bytes}

/-! ## Copies -/

theorem strcpyAt_fits {size pos : Nat} {b : Bytes} : Avoids .overflow (strcpyAt size pos b) ↔ pos + b.length + 1 ≤ size := by
  unfold strcpyAt
  by_cases hfits : pos + b.length + 1 ≤ size
  · simp [hfits]
  · simp [hfits, Avoids]

theorem fileFullpath_fits : Avoids .overflow (fileFullpath dir w) ↔ (dir.getD []).length + w.length + 1 ≤ fullpathSize := by
  constructor
  · intro ha
    cases hq : fileFullpath dir w with
    | error e =>
      rw [hq, fileFullpath_error hq] at ha
      exact absurd rfl ha
    | ok q => exact (fileFullpath_eq_ok hq).2
  · intro hfits
    rw [fileFullpath_ok hfits]
    exact avoids_ok _

theorem partPath_fits : Avoids .overflow (partPath s.recvdir w) ↔ NameFits s.recvdir w := by
  constructor
  · intro ha
    cases hq : partPath s.recvdir w with
    | error e =>
      rw [hq, partPath_error hq] at ha
      exact absurd rfl ha
    | ok q => exact (partPath_eq_ok hq).2
  · intro hfits
    rw [partPath_ok hfits]
    exact avoids_ok _

/-! ## Picking a name -/

theorem tryNames_fits {d : Disk} (hfits : (dir.getD []).length + f.length + 4 ≤ fullpathSize) : ∀ n i,
    Avoids .overflow (tryNames d dir f i n)
  | 0, _ => avoids_ok _
  | n + 1, i => by
    refine Avoids.bind ?_ fun _ _ => avoids_ite (fun _ => avoids_ok _) fun _ => tryNames_fits hfits n (i + 1)
    rw [fileFullpath_fits, numbered_length]
    omega

/-- The search for a number copies the first of the names it tries, and all are of one length. -/
theorem fileNewname_fits (d : Disk) (f : Bytes) (dir : Option Bytes) :
    Avoids .overflow (fileNewname d f dir) ↔ (dir.getD []).length + f.length + 4 ≤ fullpathSize := by
  constructor
  · intro ha
    have hfirst := fileFullpath_fits.1 (avoids_bind_iff.1 ha).1
    rw [numbered_length] at hfirst
    omega
  · intro hfits
    exact tryNames_fits hfits 99 1

/-- The copies for a file to be saved under the name fit: the name's own if it is free, else those of the numbered names,
and of the one picked when there is one. -/
def HelloFits (s : State) (f : Bytes) : Prop :=
  (s.Free f → NameFits s.recvdir f) ∧
  (¬ s.Free f → (s.recvdir.getD []).length + f.length + 4 ≤ fullpathSize ∧
    ((∃ j, 1 ≤ j ∧ j < 100 ∧ s.Free (numbered f j)) → NameFits s.recvdir (numbered f 1)))

/-- **Picking a name** copies nothing that does not fit, and gives a name that fits, exactly when `HelloFits`. -/
theorem pickName_fits : (Avoids .overflow (pickName s f) ∧ ∀ w, pickName s f = .ok (some w) → NameFits s.recvdir w) ↔
    HelloFits s f := by
  by_cases hfree : s.Free f
  · rw [pickName_free hfree, avoids_bind_iff, fileFullpath_fits]
    constructor
    · rintro ⟨⟨hlen, -⟩, hw⟩
      refine ⟨fun _ => hw f ?_, fun htaken => absurd hfree htaken⟩
      rw [fileFullpath_ok hlen]
      rfl
    · rintro ⟨hfits, -⟩
      have hlen := (hfits hfree).2
      refine ⟨⟨by omega, fun _ _ => avoids_ok _⟩, fun w hw => ?_⟩
      obtain ⟨q, -, hw⟩ := bind_eq_ok.1 hw
      cases hw
      exact hfits hfree
  · rw [pickName_taken hfree, avoids_bind_iff, fileFullpath_fits]
    constructor
    · rintro ⟨⟨hlen, htry⟩, hw⟩
      have hpath := fileFullpath_ok hlen
      have hnames : Avoids .overflow (fileNewname s.fs.disk f s.recvdir) := (avoids_bind_iff.1 (htry _ hpath)).1
      rw [fileNewname_fits] at hnames
      refine ⟨fun hf => absurd hf hfree, fun _ => ⟨hnames, fun ⟨j, h1, h2, hj⟩ => ?_⟩⟩
      obtain ⟨w, htried⟩ := tryNames_find hnames (n := 99) (i := 1) ⟨j, h1, by omega, hj⟩
      obtain ⟨k, -, -, rfl, -⟩ := tryNames_eq_ok htried
      refine (nameFits_congr (by rw [numbered_length, numbered_length])).1 (hw (numbered f k) ?_)
      rw [hpath, bind_ok, fileNewname, htried]
      rfl
    · rintro ⟨-, hfits⟩
      obtain ⟨hlen, hroom⟩ := hfits hfree
      refine ⟨⟨by omega, fun _ _ => ((fileNewname_fits _ _ _).2 hlen).bind fun _ _ => avoids_ok _⟩, fun w hw => ?_⟩
      obtain ⟨q, -, hw⟩ := bind_eq_ok.1 hw
      obtain ⟨⟨rv, o⟩, ho, hw⟩ := bind_eq_ok.1 hw
      cases hw
      obtain ⟨j, h1, h2, rfl, hj⟩ := tryNames_eq_ok ho
      exact (nameFits_congr (by rw [numbered_length, numbered_length])).1 (hroom ⟨j, h1, by omega, hj⟩)

/-! ## The calls -/

theorem handleHello_fits (hreg : RegOk s) :
    Avoids .overflow (handleHello h s n) ↔ (s.files n.fileid = none → HelloFits s n.name) := by
  obtain ⟨a, s₁, hbind, hb⟩ := bindFcb_bound hreg (cstr_cstr (n.fname.getD []))
  unfold handleHello
  by_cases h0 : (s.files n.fileid).isSome
  · simp only [if_pos h0]
    refine iff_of_true (avoids_ok _) fun hnone => ?_
    rw [hnone] at h0
    cases h0
  · have hnone : s.files n.fileid = none := by simpa using h0
    have hs₁ := hb.eq
    have hpick : pickName s₁ n.name = pickName s n.name := by rw [hs₁]; rfl
    have hdir : s₁.recvdir = s.recvdir := by rw [hs₁]; rfl
    simp only [if_neg h0, hbind, bind_ok]
    change Avoids .overflow (pickName s₁ n.name >>= _) ↔ _
    rw [hpick, avoids_bind_iff, forall_prop_of_true hnone, ← pickName_fits]
    refine and_congr_right fun _ => ?_
    constructor
    · intro hrest w hw
      have hpath := (avoids_bind_iff.1 (hrest (some w) hw)).1
      rw [hdir] at hpath
      exact partPath_fits.1 hpath
    · intro hfits o ho
      cases o with
      | none => exact avoids_error nofun
      | some w =>
        refine Avoids.bind ?_ fun path _ => avoids_ite (fun _ => avoids_ok _) fun _ => avoids_ite (fun _ => avoids_ok _) fun _ => ?_
        · rw [hdir]
          exact partPath_fits.2 (hfits w ho)
        · have hack : some MsgType.ack ≠ some .hello := nofun
          exact (protoMaker_avoids (e := .overflow) nofun nofun h _ _ hack _ _).bind fun _ _ => avoids_ok _

theorem runCb_fits (hreg : RegOk s) {c : Nctx} {a : Addr} (ha : c.fcb = some a) : Avoids .overflow (runCb s c) := by
  rcases runCb_spec hreg ha with ⟨-, hrun⟩ | ⟨rcd, s₁, -, hrun, -⟩
  · rw [hrun]
    exact avoids_error nofun
  · rw [hrun]
    exact avoids_ok _

theorem finish_fits (hreg : RegOk s) {c : Nctx} {a : Addr} (ha : c.fcb = some a) (hfits : NameFits s.recvdir c.wfname)
    (path : Path) : Avoids .overflow (finish h s c path) := by
  refine Avoids.bind ?_ fun path2 _ => avoids_ite (fun _ => avoids_ok _) fun _ => avoids_ite (fun _ => avoids_ok _) fun _ => ?_
  · rw [hfits.final]
    exact avoids_ok _
  refine avoids_ite (fun _ => avoids_ok _) fun _ => Avoids.bind ?_ fun _ _ => avoids_ok _
  refine runCb_fits ?_ ha
  exact hreg.of_eq rfl rfl rfl

theorem handleFile_fits (hi : Inv s) {b : Bytes} (hb : n.content = some b) (hn : b.length = n.ctlen) :
    Avoids .overflow (handleFile h s n) ↔ ∀ c, s.files n.fileid = some c → NameFits s.recvdir c.wfname := by
  unfold handleFile
  cases hc : s.files n.fileid with
  | none => exact iff_of_true (avoids_ok _) nofun
  | some c =>
    simp only [Option.some.injEq, forall_eq']
    rw [avoids_bind_iff, partPath_fits]
    refine and_iff_left_of_imp fun hfits path _ => ?_
    refine (storeBlock_avoids (e := .overflow) nofun nofun h path c s.fs n).bind fun ⟨rv, c', fs'⟩ hstore => ?_
    refine avoids_ite (fun _ => avoids_ok _) fun _ => avoids_ite (fun _ => ?_) fun _ => avoids_ok _
    have hok := hi.ctx _ c hc
    obtain ⟨-, hsame, -⟩ := storeBlock_keeps hok.toWf hb hn hstore
    obtain ⟨a, ha, -⟩ := hok.fcb
    have hreg : RegOk { s with files := Function.update s.files n.fileid (some c'), fs := fs' } := hi.reg.of_eq rfl rfl rfl
    refine finish_fits hreg (hsame.fcb.trans ha) ?_ path
    rw [hsame.wfname]
    exact hfits

/-- The path of a file that is offered was copied when its HELLO was made. -/
theorem handleGiveme_fits (ho : SendersOk s) : Avoids .overflow (handleGiveme h s n) := by
  unfold handleGiveme
  cases hp : s.senderfiles n.fileid with
  | none => exact avoids_ok _
  | some path =>
    obtain ⟨-, -, hlen⟩ := ho _ path hp
    refine Avoids.bind (strcpyAt_fits.2 (by omega)) fun _ _ => ?_
    refine (fileBlocks_avoids (e := .overflow) nofun h.size s.fs.disk s.blocksz path).bind fun ⟨rv, blocks⟩ _ => ?_
    refine avoids_ite (fun _ => avoids_ok _) fun _ => ?_
    refine (protoMaker_avoids (e := .overflow) nofun nofun h s _ ?_ _ _).bind fun _ _ => avoids_ok _
    split <;> nofun

/-- What the copies made for a message need: for a HELLO that is not refused at once, room for the file's name; for a
block of a transfer, for the name the transfer is saved under. -/
def MessageFits (s : State) (n : Packet) : Prop :=
  (MsgType.ofCode n.type = some .hello → s.files n.fileid = none → HelloFits s n.name) ∧
  (n.IsBlock → ∀ c, s.files n.fileid = some c → NameFits s.recvdir c.wfname)

theorem dispatch_fits (hi : Inv s) (ho : SendersOk s) (hp : parse msg = .ok (.ok, n)) :
    Avoids .overflow (dispatch h s n) ↔ MessageFits s n := by
  by_cases hblock : n.IsBlock
  · obtain ⟨b, hb, hn⟩ := parse_file hp hblock
    rw [← receive_of_parse h s hp, receive_block hp hblock, handleFile_fits hi hb hn, MessageFits]
    simp only [hblock, forall_true_left, hblock.not_hello, false_implies, true_and]
  · unfold dispatch MessageFits
    simp only [hblock, false_implies, and_true]
    cases ht : MsgType.ofCode n.type with
    | none => exact iff_of_true (avoids_ok _) nofun
    | some t =>
      cases t with
      | hello =>
        rw [forall_prop_of_true rfl]
        exact handleHello_fits hi.reg
      | ack => exact iff_of_true (avoids_ok _) nofun
      | file => exact absurd (.inl ht) hblock
      | fin => exact absurd (.inr ht) hblock
      | giveme => exact iff_of_true (handleGiveme_fits ho) nofun

theorem receive_fits (hi : Inv s) (ho : SendersOk s) :
    Avoids .overflow (receive h s msg) ↔ ∀ n, parse msg = .ok (.ok, n) → MessageFits s n := by
  constructor
  · intro ha n hp
    rw [receive_of_parse h s hp] at ha
    exact (dispatch_fits hi ho hp).1 ha
  · intro hfits
    have hparse : Avoids .overflow (parse msg) := decode_avoids (e := .overflow) nofun nofun Packet.alloc msg _
    refine hparse.bind fun ⟨rv, n⟩ hp => avoids_ite (fun _ => avoids_ok _) fun hrv => ?_
    obtain rfl : rv = .ok := not_not.1 hrv
    exact (dispatch_fits hi ho hp).2 (hfits n hp)

theorem protoRecvStop_fits (hi : Inv s) {fname : Bytes} : Avoids .overflow (protoRecvStop h s fname) ↔
    ∀ c, s.files (nftpHash (fileBname fname)) = some c → NameFits s.recvdir c.wfname := by
  unfold protoRecvStop
  dsimp only
  cases s.files (nftpHash (fileBname fname)) with
  | none => exact iff_of_true (avoids_ok _) nofun
  | some c =>
    simp only [Option.some.injEq, forall_eq']
    rw [avoids_bind_iff, partPath_fits]
    refine and_iff_left_of_imp fun _ path _ => avoids_ite (fun _ => avoids_ok _) fun _ => ?_
    refine Avoids.bind ?_ fun _ _ => avoids_ok _
    have hreg : RegOk { s with
        files := htErase s.files (nftpHash (fileBname fname)), fs := (fileRemove h.remove s.fs path).2 } :=
      hi.reg.of_eq rfl rfl rfl
    obtain ⟨s₁, hdrop, -⟩ := dropCb_spec hreg c
    change Avoids .overflow (dropCb { s with
      files := htErase s.files (nftpHash (fileBname fname)), fs := (fileRemove h.remove s.fs path).2 } c)
    rw [hdrop]
    exact avoids_ok _

/-- Of the messages made only a HELLO copies a path, and only for a file it can be made for. -/
theorem protoMaker_fits {fpath : Option Bytes} {type : Option MsgType} {key i : Int} :
    Avoids .overflow (protoMaker h s fpath type key i) ↔
      ∀ p F, fpath = some p → type = some .hello → Sendable h s (fileCut p) F → (fileCut p).length + 1 ≤ fullpathSize := by
  by_cases ht : type = some .hello
  · rw [ht]
    cases fpath with
    | none => exact iff_of_true (avoids_ok _) fun p F hp => by cases hp
    | some fpath =>
      rw [protoMaker_makeHello]
      constructor
      · rintro ha p F hp - hs
        cases hp
        rw [makeHello_sendable key hs] at ha
        have hcopy := strcpyAt_fits.1 (avoids_bind_iff.1 ha).1
        omega
      · intro hfits
        refine makeHello_avoids (e := .overflow) (by decide) key fun F hs => strcpyAt_fits.2 ?_
        have := hfits fpath F rfl rfl hs
        omega
  · have havoids := protoMaker_avoids (e := .overflow) (by decide) (by decide) h s fpath ht key i
    exact iff_of_true havoids fun _ _ _ h' => absurd h' ht

/-- **What the copies of a call need.** -/
def Event.Fits (s : State) : Event → Prop
  | .msg _ m => ∀ n, parse m = .ok (.ok, n) → MessageFits s n
  | .recvStop _ fname => ∀ c, s.files (nftpHash (fileBname fname)) = some c → NameFits s.recvdir c.wfname
  | .maker h fpath type _ _ => ∀ p F, fpath = some p → type = some .hello → Sendable h s (fileCut p) F →
      (fileCut p).length + 1 ≤ fullpathSize
  | _ => True

theorem after_fits (hi : Inv s) (ho : SendersOk s) (e : Event) : Avoids .overflow (s.after e) ↔ e.Fits s := by
  cases e with
  | msg h m =>
    rw [State.after, avoids_bind_iff, receive_fits hi ho]
    exact and_iff_left fun _ _ => avoids_ok _
  | recvStop h fname =>
    rw [State.after, avoids_bind_iff, protoRecvStop_fits hi]
    exact and_iff_left fun _ _ => avoids_ok _
  | maker h fpath t key i =>
    rw [State.after, avoids_bind_iff, protoMaker_fits]
    exact and_iff_left fun _ _ => avoids_ok _
  | register fname cb arg =>
    obtain ⟨rv, s', hr, -⟩ := protoRegister_spec hi.reg fname cb arg
    rw [State.after, hr]
    exact iff_of_true (avoids_ok _) trivial
  | unregister fname =>
    obtain ⟨rv, s', hr, -⟩ := protoUnregister_spec hi.reg fname
    rw [State.after, hr]
    exact iff_of_true (avoids_ok _) trivial
  | setRecvdir dir => exact iff_of_true (avoids_ok _) trivial
  | setBlocksz blksz => exact iff_of_true (avoids_ok _) trivial
  | disk disk => exact iff_of_true (avoids_ok _) trivial

/-! ## From a HELLO to its blocks -/

/-- Every transfer is saved under a name that fits. -/
def NamesFit (s : State) : Prop := ∀ key c, s.files key = some c → NameFits s.recvdir c.wfname

def State.dirLength (s : State) : ℕ := (s.recvdir.getD []).length

theorem NameFits.shorter (hfits : NameFits s.recvdir w) (hdir : s'.dirLength ≤ s.dirLength) : NameFits s'.recvdir w := by
  obtain ⟨hname, hpath⟩ := hfits
  unfold State.dirLength at hdir
  exact ⟨hname, by omega⟩

/-- A step keeps the names fitting: a HELLO is accepted under a name it has copied. -/
theorem step_namesFit {e : Event} (hi : Inv s) (hs : Step s e s') (hdir : s'.dirLength ≤ s.dirLength) (hn : NamesFit s) :
    NamesFit s' := by
  intro key c hc
  rcases step_cases hi hs with ⟨h, m, r, -, hr, rfl⟩ | ⟨-, hq⟩
  · refine NameFits.shorter ?_ hdir
    rcases receive_kinds hr with ⟨hst, -⟩ | ⟨n, hp, ht, hr⟩ | ⟨n, b, hp, hblock, hb, hlen, hr⟩
    · rw [hst] at hc
      exact hn key c hc
    · rcases handleHello_ctx hi.reg hr hc with hc | ⟨-, a, w, rfl, hfits⟩
      · exact hn key c hc
      · exact hfits
    · obtain ⟨c₀, hc₀, hw⟩ := handleFile_wfname hi hb hlen hr hc
      rw [← hw]
      exact hn key c₀ hc₀
  · exact (hn key c (hq.files key c hc)).shorter hdir

/-- **A name that fitted goes on fitting** while the path of the receive directory does not grow. -/
theorem run_namesFit {es : List Event} (hi : Inv s) (hn : NamesFit s)
    (hrun : Run (fun s e s' => Step s e s' ∧ s'.dirLength ≤ s.dirLength) s es s') : NamesFit s' := by
  obtain ⟨-, hn'⟩ := Run.invariant (I := fun s => Inv s ∧ NamesFit s)
    (fun s e s' hs he => ⟨step_inv hs.1 he.1, step_namesFit hs.1 he.1 he.2 hs.2⟩) hrun ⟨hi, hn⟩
  exact hn'

/-- **The copies of a call are in bounds** exactly when `Event.Fits`, and those of the search for a new name when the names
tried fit behind the directory; for the blocks of a transfer it is enough that the directory's path has not grown since
its HELLO. -/
theorem copies_fit (hl : Live s) :
    (∀ e, s.after e ≠ .error .overflow ↔ e.Fits s) ∧
    (∀ f dir, fileNewname s.fs.disk f dir ≠ .error .overflow ↔ (dir.getD []).length + f.length + 4 ≤ fullpathSize) ∧
    (NamesFit s → ∀ es s', Run (fun s e s' => Step s e s' ∧ s'.dirLength ≤ s.dirLength) s es s' → NamesFit s') :=
  ⟨after_fits hl.inv hl.senders, fileNewname_fits s.fs.disk, fun hn _ _ hrun => run_namesFit hl.inv hn hrun⟩

/-- A HELLO of 66 bytes of name and one of 67. -/
theorem copies_fit_longest : ∃ s, Live s ∧
    (Event.msg .good (helloBytes 0 1 (List.replicate 66 0x66) 0)).Fits s ∧
    ¬ (Event.msg .good (helloBytes 0 1 (List.replicate 67 0x66) 0)).Fits s := by
  obtain ⟨s, hl, hfits, hover⟩ := trace_live none 1 .empty []
    (fun s => s.after (.msg .good (helloBytes 0 1 (List.replicate 66 0x66) 0)) ≠ .error .overflow ∧
      s.after (.msg .good (helloBytes 0 1 (List.replicate 67 0x66) 0)) = .error .overflow) (by decide +kernel)
  exact ⟨s, hl, ((copies_fit hl).1 _).1 hfits, fun hfit => ((copies_fit hl).1 _).2 hfit hover⟩

/-- A HELLO whose name is one byte too long for `partname`. -/
theorem partname_overflow : ∃ s n, Live s ∧ parse (helloBytes 0 1 (List.replicate 67 0x66) 0) = .ok (.ok, n) ∧
    receive .good s (helloBytes 0 1 (List.replicate 67 0x66) 0) = .error .overflow := by
  obtain ⟨s, hl, ⟨n, hn, -⟩, hover⟩ := trace_live none 1 .empty []
    (fun s => (∃ n, parse (helloBytes 0 1 (List.replicate 67 0x66) 0) = .ok (.ok, n) ∧ True) ∧
      receive .good s (helloBytes 0 1 (List.replicate 67 0x66) 0) = .error .overflow) (by decide +kernel)
  exact ⟨s, n, hl, hn, hover⟩

end Nftp
