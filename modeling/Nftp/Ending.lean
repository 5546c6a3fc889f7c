import Nftp.Delivery
/-!
# Ending — after the last block

A transfer whose last block is in is over only when its file passes the check: on every other way out of the handler the
context stays, complete, and the next HELLO of the name is refused.  `run_ends` says which last blocks end their
transfer.
-/
namespace Nftp

open Lib

variable {h : Host} {s s' : State} {n n' : Packet} {msg hello : Bytes} {r : Ret} {c : Nctx}

/-! ## The next HELLO -/

/-- The HELLO is answered with 0 and its ACK, and the blocks of its file deliver it. -/
def Accepts (s : State) (hello : Bytes) (n' : Packet) : Prop :=
  ∃ r, receive .good s hello = .ok r ∧ r.rv = .ok ∧ r.rmsg = some (ackOf n'.id n'.name) ∧ r.rlen = 10 ∧
    ∀ blocks : List Bytes, 0 < blocks.length → n'.blocks.toNat = blocks.length → n'.hashcode = nftpHash blocks.flatten →
      ∃ t : Transfer, t.fileid = nftpHash n'.name ∧ t.blocks = blocks ∧ t.Delivers r.st

/-- A HELLO that finds a name for its file is accepted, unless its part file cannot be created or its key is taken. -/
theorem handleHello_stores (hreg : RegOk s) (h0 : s.files n.fileid = none) {w : Bytes}
    (hpick : pickName s n.name = .ok (some w)) (hfits : NameFits s.recvdir w) :
    ∃ r, handleHello h s n = .ok r ∧
      r.rv = if h.write = .noOpen then .file else if (s.files (nftpHash n.name)).isSome then .ht else .ok := by
  obtain ⟨a, s₁, hbind, hb⟩ := bindFcb_bound hreg (cstr_cstr (n.fname.getD []))
  have hfiles : s₁.files = s.files := (congrArg State.files hb.eq).trans rfl
  have hfs : s₁.fs = s.fs := (congrArg State.fs hb.eq).trans rfl
  have hdir : s₁.recvdir = s.recvdir := (congrArg State.recvdir hb.eq).trans rfl
  have hpick' : pickName s₁ n.name = .ok (some w) := by rw [← hpick, pickName, pickName, hdir, hfs]
  have hpath : partPath s₁.recvdir w = .ok (s.part w) := by rw [hdir]; exact partPath_ok hfits
  have hkey : (nctxAlloc n.blocks.toNat (nftpHash (cstr (n.fname.getD []))) n.hashcode).fileid = nftpHash n.name := rfl
  unfold handleHello
  have hnot : ¬ (s.files n.fileid).isSome := by rw [h0]; exact Bool.false_ne_true
  simp only [if_neg hnot, hbind, bind_ok, show pickName s₁ (cstr (n.fname.getD [])) = .ok (some w) from hpick', hpath,
    fileWrite_empty]
  by_cases hw : h.write = .noOpen
  · simp only [if_pos hw, ne_eq, reduceCtorEq, not_false_eq_true, if_true]
    exact ⟨_, rfl, rfl⟩
  simp only [if_neg hw, ne_eq, not_true_eq_false, if_false, htInsert, hfiles, hkey]
  by_cases hk : (s.files (nftpHash n.name)).isSome
  · simp only [if_pos hk, one_ne_zero, not_false_eq_true, if_true]
    exact ⟨_, rfl, rfl⟩
  · simp only [if_neg hk, not_true_eq_false, if_false]
    rw [protoMaker_ack]
    exact ⟨_, rfl, rfl⟩

/-- **When a HELLO is accepted**: no transfer under file id 0 and none of the name, and room for the file. -/
theorem accepts_iff (hi : Inv s) (hp : parse hello = .ok (.ok, n')) (ht : MsgType.ofCode n'.type = some .hello) :
    Accepts s hello n' ↔
      s.files 0 = none ∧ s.files (nftpHash n'.name) = none ∧ HasRoom s.recvdir s.Free n'.name := by
  have hid := (parse_hello hp ht).1
  have hrun : receive .good s hello = handleHello .good s n' := by
    rw [receive_of_parse .good s hp, dispatch, ht]
  rw [← pickName_iff]
  constructor
  · rintro ⟨r, hr, hrv, -⟩
    rw [hrun] at hr
    rcases handleHello_cases hi.reg hr with ⟨-, rfl⟩ | ⟨h0, a, s₁, w, path, -, -, hpick, hpath, hcase⟩
    · cases hrv
    rw [hid] at h0
    rcases hcase with ⟨-, rfl⟩ | ⟨-, rv, rmsg, rlen, ⟨-, rfl, -, -⟩ | ⟨hnone, -, -, -⟩, rfl⟩
    · cases hrv
    · cases hrv
    · exact ⟨h0, hnone, w, hpick, (partPath_eq_ok hpath).2⟩
  · rintro ⟨h0, hnone, w, hpick, hfits⟩
    obtain ⟨r, hr, hrv⟩ := handleHello_stores (h := .good) hi.reg (by rw [hid]; exact h0) hpick hfits
    rw [if_neg (by decide), hnone] at hrv
    rw [← hrun] at hr
    obtain ⟨-, hrmsg, hrlen, w', a, rcd, c, -, -, -, hall⟩ := hello_holds hi hp ht hr hrv
    refine ⟨r, hr, hrv, hrmsg, hrlen, fun blocks hpos hN hhash => ?_⟩
    exact ⟨⟨nftpHash n'.name, w', a, rcd, blocks⟩, rfl, rfl, (hall blocks hN hhash).delivers (receive_inv hi hr) hpos⟩

/-! ## The last block -/

/-- The transfer of the HELLO's name is over: its context is gone, which is what `nftp_proto_recv_status` reports, and
the HELLO is accepted. -/
structure Over (s : State) (hello : Bytes) (n' : Packet) : Prop where
  files : s.files (nftpHash n'.name) = none
  status : ∀ fpath, fileBname fpath = n'.name → protoRecvStatus s fpath = (.ht, none, -1)
  accepts : Accepts s hello n'

/-- The block gets its transfer, whose HELLO named `f`, off the table: the part file is renamed and passes the check.
And the next HELLO of `f` finds nothing under file id 0, and a free name. -/
structure EndsWell (h : Host) (s : State) (n : Packet) (c : Nctx) (f : Bytes) : Prop where
  passes : ∃ old, s.fs.disk (s.part c.wfname) = some old ∧ h.hash.Passes (old ++ c.stored h n) c.hashcode
  rename : h.rename = true
  other : n.fileid = 0 ∨ s.files 0 = none
  room : HasRoom s.recvdir (fun v => v ≠ c.wfname ∧ (s.Free v ∨ s.final v = s.part c.wfname)) f

/-- The names that are free after a part file was completed and renamed. -/
theorem free_renamed {fs' : Fs} {w content : Bytes} (hfs : AppendedTo (s.part w) s.fs fs') (hdir : s'.recvdir = s.recvdir)
    (hren : s'.fs = fs'.renamed (s.part w) (s.final w) content) (v : Bytes) :
    s'.Free v ↔ v ≠ w ∧ (s.Free v ∨ s.final v = s.part w) := by
  rw [State.Free, hren, final_congr hdir]
  by_cases hv : v = w
  · rw [hv, renamed_dst]
    exact ⟨fun he => (by cases he), fun h' => absurd rfl h'.1⟩
  · by_cases hp : s.final v = s.part w
    · rw [hp, renamed_src _ (part_ne_final s w)]
      exact ⟨fun _ => ⟨hv, .inr rfl⟩, fun _ => rfl⟩
    · rw [renamed_ne _ hp (fun he => hv (final_inj.1 he)), hfs.frame _ hp]
      exact ⟨fun h' => ⟨hv, .inl h'⟩, fun h' => h'.2.resolve_right hp⟩

/-- **A last block ends its transfer exactly when it ends it well.** -/
theorem handleFile_ends (hi : Inv s) {b : Bytes} (hb : n.content = some b) (hl : b.length = n.ctlen)
    (hc : s.files n.fileid = some c) (hcomp : Completes h s.fs.disk (s.part c.wfname) c n)
    (hr : handleFile h s n = .ok r) (hp' : parse hello = .ok (.ok, n')) (ht' : MsgType.ofCode n'.type = some .hello)
    (hname : n.fileid = nftpHash n'.name) : Over r.st hello n' ↔ EndsWell h s n c n'.name := by
  have hinv := (handleFile_effect hi hb hl hr).inv
  obtain ⟨c', fs', -, happ, hcase⟩ := handleFile_outcome hi hb hl hc hr
  -- a context that stays refutes both sides
  have hstays : r.st.files = Function.update s.files n.fileid (some c') → ¬ Over r.st hello n' := by
    intro hst ho
    have hnone := ho.files
    rw [← hname, hst, Function.update_self] at hnone
    cases hnone
  rcases hcase with ⟨hnc, -⟩ | ⟨-, hno, -, hst⟩ | ⟨-, old, hold, hren, hdir, hfs, hcheck⟩
  · exact absurd hcomp hnc
  · refine ⟨fun ho => absurd ho (hstays (by rw [hst])), fun he => ?_⟩
    obtain ⟨old, hold, -⟩ := he.passes
    rcases hno with hno | hno
    · rw [hold] at hno
      cases hno
    · rw [he.rename] at hno
      cases hno
  · rcases hcheck with ⟨hno, -, hfiles, -⟩ | ⟨hyes, -, hfiles⟩
    · refine ⟨fun ho => absurd ho (hstays hfiles), fun he => ?_⟩
      obtain ⟨old', hold', hpass⟩ := he.passes
      rw [hold] at hold'
      cases hold'
      exact absurd hpass hno
    · -- the context is gone
      have hgone : r.st.files n.fileid = none := by rw [hfiles]; exact Function.update_self ..
      have hzero : r.st.files 0 = none ↔ n.fileid = 0 ∨ s.files 0 = none := by
        by_cases h0 : n.fileid = 0
        · rw [← h0]
          exact ⟨fun _ => .inl rfl, fun _ => hgone⟩
        · rw [or_iff_right h0, hfiles]
          show Function.update (Function.update s.files n.fileid (some c')) n.fileid none 0 = none ↔ _
          rw [Function.update_of_ne (Ne.symm h0), Function.update_of_ne (Ne.symm h0)]
      have hfree : r.st.Free = fun v => v ≠ c.wfname ∧ (s.Free v ∨ s.final v = s.part c.wfname) := by
        funext v
        exact propext (free_renamed happ hdir hfs v)
      have haccepts := accepts_iff hinv hp' ht'
      rw [hfree, hdir, hzero, ← hname] at haccepts
      constructor
      · intro ho
        obtain ⟨h0, -, hroom⟩ := haccepts.1 ho.accepts
        exact ⟨⟨old, hold, hyes⟩, hren, h0, hroom⟩
      · intro he
        refine ⟨by rw [← hname]; exact hgone, fun fpath hb' => ?_, haccepts.2 ⟨he.other, hgone, he.room⟩⟩
        rw [protoRecvStatus, hb', ← hname, hgone]

/-! ## Runs -/

/-- A block that brings the position of the transfer of the HELLO's name to the end leaves the transfer over. -/
def Event.Ends (hello : Bytes) (n' : Packet) (s : State) : Event → Prop
  | .msg h m => ∀ n c c' fs' r, parse m = .ok (.ok, n) → n.IsBlock → n.fileid = nftpHash n'.name →
      s.files n.fileid = some c → storeBlock h (s.part c.wfname) c s.fs n = .ok (.ok, c', fs') → c'.nextid = c'.cap →
      receive h s m = .ok r → Over r.st hello n'
  | _ => True

def Event.EndsWell (f : Bytes) (s : State) : Event → Prop
  | .msg h m => ∀ n c, parse m = .ok (.ok, n) → n.IsBlock → n.fileid = nftpHash f → s.files n.fileid = some c →
      Completes h s.fs.disk (s.part c.wfname) c n → Nftp.EndsWell h s n c f
  | _ => True

theorem event_ends {e : Event} (hi : Inv s) (hs : Step s e s') (hp' : parse hello = .ok (.ok, n'))
    (ht' : MsgType.ofCode n'.type = some .hello) : e.Ends hello n' s ↔ e.EndsWell n'.name s := by
  cases e with
  | msg h m =>
    obtain ⟨r, hr, -⟩ := bind_eq_ok.1 hs
    constructor
    · intro hends n c hp hblock hname hc hcomp
      obtain ⟨b, hb, hl⟩ := parse_file hp hblock
      have hr' := hr
      rw [receive_block hp hblock] at hr'
      rcases handleFile_cases hr' with ⟨hc', -⟩ | ⟨c₀, path, rv, c', fs', hc₀, hpath, hstore, -⟩
      · rw [hc] at hc'; cases hc'
      rw [hc] at hc₀
      cases hc₀
      obtain ⟨rfl, -⟩ := partPath_eq_ok hpath
      obtain ⟨hrv, hcap⟩ := (storeBlock_completes (hi.ctx _ c hc).toWf hb hl hstore).1.2 hcomp
      subst hrv
      exact (handleFile_ends hi hb hl hc hcomp hr' hp' ht' hname).1
        (hends n c c' fs' r hp hblock hname hc hstore hcap hr)
    · intro hwell n c c' fs' r' hp hblock hname hc hstore hcap hr'
      obtain ⟨b, hb, hl⟩ := parse_file hp hblock
      have hcomp := (storeBlock_completes (hi.ctx _ c hc).toWf hb hl hstore).1.1 ⟨rfl, hcap⟩
      rw [receive_block hp hblock] at hr'
      exact (handleFile_ends hi hb hl hc hcomp hr' hp' ht' hname).2 (hwell n c hp hblock hname hc hcomp)
  | register fname cb arg => exact Iff.rfl
  | unregister fname => exact Iff.rfl
  | recvStop h fname => exact Iff.rfl
  | maker h fpath t key n => exact Iff.rfl
  | setRecvdir dir => exact Iff.rfl
  | setBlocksz blksz => exact Iff.rfl
  | disk disk => exact Iff.rfl

/-- **Whatever happened before, a last block ends its transfer exactly when it ends it well**; and so the transfers of a
run end exactly when each of its last blocks does. -/
theorem run_ends {s₀ : State} {es : List Event} (hb : Booted s₀) (hp' : parse hello = .ok (.ok, n'))
    (ht' : MsgType.ofCode n'.type = some .hello) :
    (Run Step s₀ es s → ∀ e s', Step s e s' → (e.Ends hello n' s ↔ e.EndsWell n'.name s)) ∧
    (Run (fun s e s' => Step s e s' ∧ e.Ends hello n' s) s₀ es s ↔
      Run (fun s e s' => Step s e s' ∧ e.EndsWell n'.name s) s₀ es s) := by
  constructor
  · intro hrun e s' hs
    exact event_ends (hrun.invariant (fun _ _ _ => step_inv) (booted_inv hb)) hs hp' ht'
  · refine Run.congr (I := Inv) (fun s e s' hi he => step_inv hi he.1) (fun s e s' hi => ?_) (booted_inv hb)
    exact and_congr_right fun hs => event_ends hi hs hp' ht'

instance (dir : Option Bytes) (free : Bytes → Prop) [DecidablePred free] (f : Bytes) : Decidable (HasRoom dir free f) :=
  haveI : Decidable (∃ j, 1 ≤ j ∧ j < 100 ∧ free (numbered f j)) :=
    decidable_of_iff (∃ j ∈ List.range 100, 1 ≤ j ∧ free (numbered f j))
      (exists_congr fun j => by rw [List.mem_range, and_left_comm])
  inferInstanceAs (Decidable (_ ∨ _))

instance (s : State) (w : Bytes) : Decidable (s.Free w) := inferInstanceAs (Decidable (_ = none))

instance (h : Host) (s : State) (n : Packet) (c : Nctx) (f : Bytes) : Decidable (EndsWell h s n c f) :=
  decidable_of_iff ((s.fs.disk (s.part c.wfname)).any (fun old => h.hash.Passes (old ++ c.stored h n) c.hashcode) = true ∧
      h.rename = true ∧ (n.fileid = 0 ∨ s.files 0 = none) ∧
      HasRoom s.recvdir (fun v => v ≠ c.wfname ∧ (s.Free v ∨ s.final v = s.part c.wfname)) f) (by
    rw [Option.any_eq_true]
    constructor
    · rintro ⟨⟨old, hd, hpass⟩, hren, h0, hroom⟩
      exact ⟨⟨old, hd, of_decide_eq_true hpass⟩, hren, h0, hroom⟩
    · rintro ⟨⟨old, hd, hpass⟩, hren, h0, hroom⟩
      exact ⟨⟨old, hd, decide_eq_true hpass⟩, hren, h0, hroom⟩)

instance (f : Bytes) (s : State) (e : Event) : Decidable (e.EndsWell f s) :=
  match e with
  | .msg h m =>
    match hp : parse m with
    | .error _ => isTrue fun n c hn => by rw [hp] at hn; cases hn
    | .ok (rv, n) =>
      if hrv : rv = .ok then
        match hc : s.files n.fileid with
        | none => isTrue fun m' c hm _ _ hc' => by rw [hp] at hm; cases hm; rw [hc] at hc'; cases hc'
        | some c =>
          decidable_of_iff (n.IsBlock → n.fileid = nftpHash f → Completes h s.fs.disk (s.part c.wfname) c n →
              Nftp.EndsWell h s n c f)
            ⟨fun h' m' c' hm hb hname hc' => by rw [hp] at hm; cases hm; rw [hc] at hc'; cases hc'; exact h' hb hname,
              fun h' hb hname => h' n c (by rw [hp, hrv]) hb hname hc⟩
      else isTrue fun m' c hm => by rw [hp] at hm; cases hm; exact absurd rfl hrv
  | .register .. => isTrue trivial
  | .unregister _ => isTrue trivial
  | .recvStop .. => isTrue trivial
  | .maker .. => isTrue trivial
  | .setRecvdir _ => isTrue trivial
  | .setBlocksz _ => isTrue trivial
  | .disk _ => isTrue trivial

/-- A file of one block whose hash is right: its transfer ends. -/
theorem run_ends_one : ∃ s₀ s n', Booted s₀ ∧ parse (helloBytes 0 1 [0x66] (nftpHash [1, 2])) = .ok (.ok, n') ∧
    Run (fun s e s' => Step s e s' ∧ e.Ends (helloBytes 0 1 [0x66] (nftpHash [1, 2])) n' s) s₀
      [.msg .good (helloBytes 0 1 [0x66] (nftpHash [1, 2])), .msg .good (fileBytes [0x66] 0 [1, 2])] s := by
  obtain ⟨n', hp', ht', hname, -⟩ := parse_helloBytes 0 1 (nftpHash [1, 2]) (show [0x66].length < 2 ^ 16 by decide) rfl
  obtain ⟨s₀, s, hb, hrun, -⟩ := trace_sound (fun s e => e.EndsWell [0x66] s) none 1 .empty
    [.msg .good (helloBytes 0 1 [0x66] (nftpHash [1, 2])), .msg .good (fileBytes [0x66] 0 [1, 2])] (fun _ => True)
    (by decide +kernel)
  refine ⟨s₀, s, n', hb, hp', (run_ends hb hp' ht').2.2 ?_⟩
  rw [hname]
  exact hrun

/-- A HELLO that announces hash 0, then its only block, whose hash is another: the call is refused, the context stays with
its position at the end, and the HELLO sent again is refused as well. -/
theorem mismatch_stays : ∃ s r r' n', Live s ∧ parse (helloBytes 0 1 [0x66] 0) = .ok (.ok, n') ∧
    receive .good s (fileBytes [0x66] 0 [1, 2]) = .ok r ∧ r.rv = .proto ∧
    protoRecvStatus r.st [0x66] = (.ok, some 1, 1) ∧ receive .good r.st (helloBytes 0 1 [0x66] 0) = .ok r' ∧ r'.rv = .ht ∧
    ¬ (Event.msg .good (fileBytes [0x66] 0 [1, 2])).Ends (helloBytes 0 1 [0x66] 0) n' s := by
  obtain ⟨n', hp', ht', hname, -⟩ := parse_helloBytes 0 1 0 (show [0x66].length < 2 ^ 16 by decide) rfl
  obtain ⟨s, hl, ⟨n, hp, hblock, hid, c, hc, x, hstore, hcap⟩, r, hr, hrv, hstatus, r', hr', hrv'⟩ :=
    trace_live none 1 .empty [.msg .good (helloBytes 0 1 [0x66] 0)]
      (fun s => (∃ n, parse (fileBytes [0x66] 0 [1, 2]) = .ok (.ok, n) ∧ n.IsBlock ∧ n.fileid = nftpHash [0x66] ∧
          ∃ c, s.files n.fileid = some c ∧
          ∃ x, storeBlock .good (s.part c.wfname) c s.fs n = .ok (.ok, x) ∧ x.1.nextid = x.1.cap) ∧
        ∃ r, receive .good s (fileBytes [0x66] 0 [1, 2]) = .ok r ∧ r.rv = .proto ∧
          protoRecvStatus r.st [0x66] = (.ok, some 1, 1) ∧
        ∃ r', receive .good r.st (helloBytes 0 1 [0x66] 0) = .ok r' ∧ r'.rv = .ht) (by decide +kernel)
  refine ⟨s, r, r', n', hl, hp', hr, hrv, hstatus, hr', hrv', fun hends => ?_⟩
  have ho := hends n c x.1 x.2 r hp hblock (by rw [hid, hname]) hc hstore hcap hr
  have hst := ho.status [0x66] (by rw [hname]; rfl)
  rw [hst] at hstatus
  cases hstatus

end Nftp
