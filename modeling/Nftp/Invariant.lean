import Nftp.Lib.Run
import Nftp.Handler
import Nftp.Paths
/-!
# Invariant — the reachable states

Runs of the API from `nftp_proto_init`, and what holds in every state of one: the registry is in order, and every
context under a key is that key's, has its block table, and is bound to a record that is the default one or was made for
a name of that key.  `receive_effect` gives what a message leaves alone.
-/
namespace Nftp

open Lib

/-! ## Runs -/

/-- One call of the API, with what the C library answers during it; or a change of the disk by another program. -/
inductive Event
  | msg (h : Host) (msg : Bytes)
  | register (fname : Option Bytes) (cb : Option Nat) (arg : Nat)
  | unregister (fname : Option Bytes)
  | recvStop (h : Host) (fname : Bytes)
  | maker (h : Host) (fpath : Option Bytes) (type : Option MsgType) (key n : Int)
  | setRecvdir (dir : Bytes)
  | setBlocksz (blksz : UInt32)
  | disk (disk : Disk)

def State.after (s : State) : Event → Except Fault State
  | .msg h msg => do
    let r ← receive h s msg
    return r.st
  | .register fname cb arg => do
    let (_, s') ← protoRegister s fname cb arg
    return s'
  | .unregister fname => do
    let (_, s') ← protoUnregister s fname
    return s'
  | .recvStop h fname => do
    let (_, s') ← protoRecvStop h s fname
    return s'
  | .maker h fpath type key n => do
    let r ← protoMaker h s fpath type key n
    return r.st
  | .setRecvdir dir => .ok (Nftp.setRecvdir s dir)
  | .setBlocksz blksz => .ok (Nftp.setBlocksz s blksz)
  | .disk disk => .ok { s with fs := { s.fs with disk := disk } }

def Step (s : State) (e : Event) (s' : State) : Prop := s.after e = .ok s'

/-- A state `nftp_proto_init` leaves, whatever directory, block size and disk it finds. -/
def Booted (s : State) : Prop := ∃ dir blksz fs, protoInit (State.boot (Option.map cstr dir) blksz fs) = .ok (.ok, s)

/-- **The states of the program**: those a run of the API leads to from `nftp_proto_init`. -/
abbrev Live (s : State) : Prop := Reachable Booted Step s

/-! ## The invariant -/

structure CtxOk (s : State) (key : UInt32) (c : Nctx) : Prop extends c.Wf where
  fileid : c.fileid = key
  fcb : ∃ a, c.fcb = some a ∧ a < s.brk ∧ ∀ r, s.heap a = some r → r.fname = star ∨ nftpHash r.fname = key

structure Inv (s : State) : Prop where
  reg : RegOk s
  ctx : ∀ key c, s.files key = some c → CtxOk s key c

def Packet.key (n : Packet) : Option UInt32 :=
  match MsgType.ofCode n.type with
  | some .hello => some (nftpHash n.name)
  | some .file => some n.fileid
  | some .fin => some n.fileid
  | _ => none

variable {h : Host} {s s' : State} {n : Packet} {msg : Bytes} {r : Ret} {key : UInt32} {c : Nctx}

theorem CtxOk.keeps (hc : CtxOk s key c) (hk : Keeps s s') : CtxOk s' key c where
  toWf := hc.toWf
  fileid := hc.fileid
  fcb := by
    obtain ⟨a, ha, hlt, hn⟩ := hc.fcb
    refine ⟨a, ha, Nat.lt_of_lt_of_le hlt hk.brk_le, fun r hr => ?_⟩
    obtain ⟨r', hr', he⟩ := hk.fname a r hlt hr
    rw [he]
    exact hn r' hr'

theorem CtxOk.same {c' : Nctx} (hc : CtxOk s key c) (hw : c'.Wf) (hs : c.Same c') : CtxOk s key c' where
  toWf := hw
  fileid := hs.fileid.trans hc.fileid
  fcb := by rw [hs.fcb]; exact hc.fcb

theorem Inv.of_keeps (hi : Inv s) (hreg : RegOk s') (hk : Keeps s s')
    (hfiles : ∀ g c, s'.files g = some c → s.files g = some c) : Inv s' :=
  ⟨hreg, fun g c hg => (hi.ctx g c (hfiles g c hg)).keeps hk⟩

/-! ## What a message leaves alone -/

/-- The name on disk a message concerns: the one its HELLO picks, or the one its transfer is saved under. -/
def Concerns (s : State) (n : Packet) (w : Bytes) : Prop :=
  match MsgType.ofCode n.type with
  | some .hello => pickName s n.name = .ok (some w)
  | some .file => ∃ c, s.files n.fileid = some c ∧ c.wfname = w
  | some .fin => ∃ c, s.files n.fileid = some c ∧ c.wfname = w
  | _ => False

/-- The step from `s` to `s'` concerns the transfer under `key` and the paths of the names in `ws`. -/
structure Effect (s : State) (key : UInt32) (ws : Bytes → Prop) (s' : State) : Prop where
  inv : Inv s'
  keeps : Keeps s s'
  recvdir : s'.recvdir = s.recvdir
  senderfiles : s'.senderfiles = s.senderfiles
  blocksz : s'.blocksz = s.blocksz
  files : ∀ g, g ≠ key → s'.files g = s.files g
  disk : ∀ q, (∀ w, ws w → q ≠ s.part w ∧ q ≠ s.final w) → s'.fs.disk q = s.fs.disk q
  calls : ∃ cs, s'.calls = s.calls ++ cs ∧ ∀ x ∈ cs, x.fileid = key
  heap : ∀ a r, s.heap a = some r → s'.heap a = some r ∨ r.fname ≠ star ∧ nftpHash r.fname = key

theorem Effect.refl (hi : Inv s) (key : UInt32) (ws : Bytes → Prop) : Effect s key ws s :=
  ⟨hi, .refl s, rfl, rfl, rfl, fun _ _ => rfl, fun _ _ => rfl, ⟨[], by simp, nofun⟩, fun _ _ hr => .inl hr⟩

theorem callOf_fileid {fileid : UInt32} {rec : FileCb} {x : Call} (hx : x ∈ callOf fileid rec) : x.fileid = fileid := by
  unfold callOf at hx
  split at hx
  · rw [List.mem_singleton.1 hx]
  · cases hx

/-- A context there after a HELLO was there before, or is the one the HELLO stored. -/
theorem handleHello_ctx (hreg : RegOk s) (hr : handleHello h s n = .ok r) (hc : r.st.files key = some c) :
    s.files key = some c ∨ key = nftpHash n.name ∧ ∃ a w, c = helloCtx n a w ∧ NameFits s.recvdir w := by
  rcases handleHello_cases hreg hr with ⟨-, rfl⟩ | ⟨-, a, s₁, w, path, -, hb, -, hpath, ⟨-, rfl⟩ | ⟨-, rv, rmsg, rlen, -, rfl⟩⟩
  · exact .inl hc
  · rw [hb.eq] at hc
    exact .inl hc
  · replace hc : Function.update s.files (nftpHash n.name) (some (helloCtx n a w)) key = some c := hc
    by_cases hkey : key = nftpHash n.name
    · rw [hkey, Function.update_self] at hc
      cases hc
      exact .inr ⟨hkey, a, w, rfl, (partPath_eq_ok hpath).2⟩
    · rw [Function.update_of_ne hkey] at hc
      exact .inl hc

theorem handleHello_effect (hi : Inv s) (hr : handleHello h s n = .ok r) :
    Effect s (nftpHash n.name) (fun w => pickName s n.name = .ok (some w)) r.st := by
  rcases handleHello_cases hi.reg hr with ⟨-, rfl⟩ | ⟨-, a, s₁, w, path, -, hb, hpick, hpath, hcase⟩
  · exact .refl hi _ _
  obtain ⟨rfl, -⟩ := partPath_eq_ok hpath
  have hs₁ := hb.eq
  have hfiles : s₁.files = s.files := (congrArg State.files hs₁).trans rfl
  have hcalls : s₁.calls = s.calls := (congrArg State.calls hs₁).trans rfl
  have hfs : s₁.fs = s.fs := (congrArg State.fs hs₁).trans rfl
  have hheap : ∀ b rb, s.heap b = some rb → s₁.heap b = some rb ∨ rb.fname ≠ star ∧ nftpHash rb.fname = nftpHash n.name :=
    fun b rb hrb => .inl (hb.heap b rb hrb)
  rcases hcase with ⟨-, rfl⟩ | ⟨-, rv, rmsg, rlen, -, rfl⟩
  · exact ⟨hi.of_keeps hb.reg hb.keeps fun g c hg => by rw [← hfiles]; exact hg, hb.keeps, (congrArg State.recvdir hs₁).trans rfl,
      (congrArg State.senderfiles hs₁).trans rfl, (congrArg State.blocksz hs₁).trans rfl, fun g _ => by rw [hfiles], fun q _ => by rw [hfs], ⟨[], by rw [hcalls, List.append_nil], nofun⟩, hheap⟩
  · have hk : Keeps s { s₁ with
        files := Function.update s.files (nftpHash n.name) (some (helloCtx n a w)), fs := s.fs.created (s.part w) } :=
      ⟨hb.keeps.brk_le, hb.keeps.fname⟩
    refine ⟨⟨hb.reg.of_eq rfl rfl rfl, fun g c hg => ?_⟩, hk, (congrArg State.recvdir hs₁).trans rfl,
      (congrArg State.senderfiles hs₁).trans rfl, (congrArg State.blocksz hs₁).trans rfl, fun g hg => Function.update_of_ne hg _ _,
      fun q hq => Function.update_of_ne (hq w hpick).1 _ _, ⟨[], by rw [hcalls, List.append_nil], nofun⟩, hheap⟩
    replace hg : Function.update s.files (nftpHash n.name) (some (helloCtx n a w)) g = some c := hg
    by_cases hgk : g = nftpHash n.name
    · subst hgk
      rw [Function.update_self] at hg
      cases hg
      refine ⟨helloCtx_wf n a w, rfl, a, rfl, Nat.lt_of_lt_of_le hb.lt_brk hb.keeps.brk_le, fun rb hrb => ?_⟩
      obtain ⟨ra, hra, hname⟩ := hb.record
      have := hb.heap a ra hra
      replace hrb : s₁.heap a = some rb := hrb
      rw [this] at hrb
      cases hrb
      rcases hname with hname | hname
      · exact .inr (by rw [hname])
      · exact .inl hname
    · rw [Function.update_of_ne hgk] at hg
      exact (hi.ctx g c hg).keeps hk

theorem finish_effect (hi : Inv s) (hc : s.files key = some c) {w : Bytes} (hw : c.wfname = w)
    (hr : finish h s c (s.part w) = .ok r) : Effect s key (fun v => v = w) r.st := by
  subst hw
  have hok := hi.ctx key c hc
  obtain ⟨path2, hpath2, hcase⟩ := finish_cases hr
  obtain rfl := fullpath_eq_ok hpath2
  have hfs : ∀ content q, (∀ v, v = c.wfname → q ≠ s.part v ∧ q ≠ s.final v) →
      (s.fs.renamed (s.part c.wfname) (s.final c.wfname) content).disk q = s.fs.disk q := by
    intro content q hq
    obtain ⟨h1, h2⟩ := hq _ rfl
    show Function.update (Function.update s.fs.disk _ none) _ _ q = _
    rw [Function.update_of_ne h2, Function.update_of_ne h1]
  have hren : ∀ content, Inv { s with fs := s.fs.renamed (s.part c.wfname) (s.final c.wfname) content } := fun content =>
    hi.of_keeps (hi.reg.of_eq rfl rfl rfl) ⟨Nat.le_refl _, fun a r' _ hr' => ⟨r', hr', rfl⟩⟩ fun _ _ hg => hg
  rcases hcase with ⟨-, -, -, hst⟩ | ⟨content, -, -, -, -, ⟨-, -, hst⟩ | ⟨-, -, s₁, hrun, hst⟩⟩
  · rw [hst]; exact .refl hi _ _
  · rw [hst]
    exact ⟨hren content, ⟨Nat.le_refl _, fun a r' _ hr' => ⟨r', hr', rfl⟩⟩, rfl, rfl, rfl, fun _ _ => rfl, hfs content,
      ⟨[], by simp, nofun⟩, fun a ra hra => .inl hra⟩
  · obtain ⟨a, ha, hlt, hname⟩ := hok.fcb
    rcases runCb_spec (hren content).reg ha with ⟨-, hrun'⟩ | ⟨ra, s₂, hra, hrun', hreg, hk, hs₂, hheap⟩
    · rw [hrun'] at hrun; cases hrun
    rw [hrun'] at hrun
    cases hrun
    rw [hst]
    have hk' : Keeps s { s₁ with files := htErase s₁.files c.fileid } := ⟨hk.brk_le, hk.fname⟩
    have hfiles : s₁.files = s.files := (congrArg State.files hs₂).trans rfl
    refine ⟨⟨hreg.of_eq rfl rfl rfl, fun g c' hg => ?_⟩, hk', (congrArg State.recvdir hs₂).trans rfl,
      (congrArg State.senderfiles hs₂).trans rfl, (congrArg State.blocksz hs₂).trans rfl, fun g hg => ?_,
      fun q hq => ?_, ⟨callOf c.fileid ra, (congrArg State.calls hs₂).trans rfl, fun x hx => ?_⟩, fun b rb hrb => ?_⟩
    · replace hg : Function.update s₁.files c.fileid none g = some c' := hg
      by_cases hgk : g = c.fileid
      · rw [hgk, Function.update_self] at hg; cases hg
      · rw [Function.update_of_ne hgk, hfiles] at hg
        exact (hi.ctx g c' hg).keeps hk'
    · show Function.update s₁.files c.fileid none g = _
      rw [hok.fileid, Function.update_of_ne hg, hfiles]
    · show s₁.fs.disk q = _
      rw [hs₂]
      exact hfs content q hq
    · rw [callOf_fileid hx, hok.fileid]
    · show s₁.heap b = some rb ∨ _
      rw [hheap b]
      by_cases hcase : b = a ∧ ra.fname ≠ star
      · right
        have hra' : s.heap a = some ra := hra
        rw [hcase.1, hra'] at hrb
        cases hrb
        refine ⟨hcase.2, ?_⟩
        rcases hname ra hra' with hs | hs
        · exact absurd hs hcase.2
        · exact hs
      · rw [if_neg hcase]
        exact .inl hrb

/-- The context of a transfer that ends goes exactly when the call reports success. -/
theorem finish_files {path : Path} (hkey : c.fileid = key) (hr : finish h s c path = .ok r) :
    (r.rv = .ok ∧ r.st.files key = none) ∨ (r.rv ≠ .ok ∧ r.st.files = s.files) := by
  obtain ⟨path2, -, hcase⟩ := finish_cases hr
  rcases hcase with ⟨-, hrv, -, hst⟩ | ⟨content, -, -, -, -, ⟨-, hrv, hst⟩ | ⟨-, hrv, s₁, -, hst⟩⟩
  · exact .inr ⟨hrv, by rw [hst]⟩
  · exact .inr ⟨hrv, by rw [hst]⟩
  · refine .inl ⟨hrv, ?_⟩
    rw [hst, ← hkey]
    exact Function.update_self ..

/-- **What the end of a transfer leaves**: nothing changed when the rename fails; else the file under its final name, and
the context gone exactly when the check passes. -/
theorem finish_outcome (hreg : RegOk s) {a : Addr} (ha : c.fcb = some a) (hr : finish h s c (s.part c.wfname) = .ok r) :
    ((s.fs.disk (s.part c.wfname) = none ∨ h.rename = false) ∧ r.rv ≠ .ok ∧ r.st = s) ∨
    ∃ content, s.fs.disk (s.part c.wfname) = some content ∧ h.rename = true ∧ r.st.recvdir = s.recvdir ∧
      r.st.fs = s.fs.renamed (s.part c.wfname) (s.final c.wfname) content ∧
      (¬ h.hash.Passes content c.hashcode ∧ r.rv ≠ .ok ∧ r.st.files = s.files ∧ r.st.calls = s.calls ∨
        h.hash.Passes content c.hashcode ∧ r.rv = .ok ∧ r.st.files = htErase s.files c.fileid) := by
  obtain ⟨path2, hpath2, hcase⟩ := finish_cases hr
  obtain rfl := fullpath_eq_ok hpath2
  rcases hcase with ⟨hno, hrv, -, hst⟩ | ⟨content, hd, hren, -, -, ⟨hno, hrv, hst⟩ | ⟨hyes, hrv, s₁, hrun, hst⟩⟩
  · exact .inl ⟨hno, hrv, hst⟩
  · refine .inr ⟨content, hd, hren, ?_, ?_, .inl ⟨hno, hrv, ?_, ?_⟩⟩
    all_goals rw [hst]
  · have hreg' : RegOk { s with fs := s.fs.renamed (s.part c.wfname) (s.final c.wfname) content } :=
      hreg.of_eq rfl rfl rfl
    rcases runCb_spec hreg' ha with ⟨-, hrun'⟩ | ⟨rcd, s₂, -, hrun', -, -, hs₂, -⟩
    · rw [hrun'] at hrun; cases hrun
    rw [hrun'] at hrun
    cases hrun
    have hfiles : s₁.files = s.files := (congrArg State.files hs₂).trans rfl
    refine .inr ⟨content, hd, hren, ?_, ?_, .inr ⟨hyes, hrv, ?_⟩⟩
    · rw [hst]
      exact (congrArg State.recvdir hs₂).trans rfl
    · rw [hst]
      exact (congrArg State.fs hs₂).trans rfl
    · rw [hst, ← hfiles]

theorem handleFile_effect (hi : Inv s) {b : Bytes} (hb : n.content = some b) (hn : b.length = n.ctlen)
    (hr : handleFile h s n = .ok r) :
    Effect s n.fileid (fun w => ∃ c, s.files n.fileid = some c ∧ c.wfname = w) r.st := by
  rcases handleFile_cases hr with ⟨-, rfl⟩ | ⟨c, path, rv, c', fs', hc, hpath, hstore, hcase⟩
  · exact .refl hi _ _
  obtain ⟨rfl, -⟩ := partPath_eq_ok hpath
  have hok := hi.ctx _ c hc
  obtain ⟨hw', hsame, happ⟩ := storeBlock_keeps hok.toWf hb hn hstore
  let t : State := { s with files := Function.update s.files n.fileid (some c'), fs := fs' }
  have ht : Inv t := by
    refine ⟨hi.reg.of_eq rfl rfl rfl, fun g d hg => ?_⟩
    replace hg : Function.update s.files n.fileid (some c') g = some d := hg
    by_cases hgk : g = n.fileid
    · subst hgk
      rw [Function.update_self] at hg
      cases hg
      have := hok.same hw' hsame
      exact ⟨this.toWf, this.fileid, this.fcb⟩
    · rw [Function.update_of_ne hgk] at hg
      have := hi.ctx g d hg
      exact ⟨this.toWf, this.fileid, this.fcb⟩
  have hkt : Keeps s t := ⟨Nat.le_refl _, fun a r' _ hr' => ⟨r', hr', rfl⟩⟩
  have hfilest : ∀ g, g ≠ n.fileid → t.files g = s.files g := fun g hg => Function.update_of_ne hg _ _
  rcases hcase with ⟨-, rfl⟩ | ⟨-, -, hfin⟩
  · exact ⟨ht, hkt, rfl, rfl, rfl, hfilest, fun q hq => happ.frame q (hq _ ⟨c, hc, rfl⟩).1, ⟨[], by simp, nofun⟩,
      fun a ra hra => .inl hra⟩
  · have hc' : t.files n.fileid = some c' := Function.update_self ..
    have he := finish_effect ht hc' hsame.wfname hfin
    refine ⟨he.inv, hkt.trans he.keeps, he.recvdir, he.senderfiles, he.blocksz, fun g hg => (he.files g hg).trans (hfilest g hg),
      fun q hq => ?_, he.calls, he.heap⟩
    have hq' := hq _ ⟨c, hc, rfl⟩
    exact (he.disk q (fun v hv => by subst hv; exact hq')).trans (happ.frame q hq'.1)

/-- **What a FILE or END leaves of its transfer**: the context goes on; or it is complete and the rename fails; or the
file is under its final name, and the context gone exactly when the check passes. -/
theorem handleFile_outcome (hi : Inv s) {b : Bytes} (hb : n.content = some b) (hn : b.length = n.ctlen)
    (hc : s.files n.fileid = some c) (hr : handleFile h s n = .ok r) : ∃ c' fs',
      c.Same c' ∧ AppendedTo (s.part c.wfname) s.fs fs' ∧
      ((¬ Completes h s.fs.disk (s.part c.wfname) c n ∧
          r.st = { s with files := Function.update s.files n.fileid (some c'), fs := fs' }) ∨
        (Completes h s.fs.disk (s.part c.wfname) c n ∧ (s.fs.disk (s.part c.wfname) = none ∨ h.rename = false) ∧
          r.rv ≠ .ok ∧ r.st = { s with files := Function.update s.files n.fileid (some c'), fs := fs' }) ∨
        (Completes h s.fs.disk (s.part c.wfname) c n ∧ ∃ old, s.fs.disk (s.part c.wfname) = some old ∧ h.rename = true ∧
          r.st.recvdir = s.recvdir ∧
          r.st.fs = fs'.renamed (s.part c.wfname) (s.final c.wfname) (old ++ c.stored h n) ∧
          (¬ h.hash.Passes (old ++ c.stored h n) c.hashcode ∧ r.rv ≠ .ok ∧
              r.st.files = Function.update s.files n.fileid (some c') ∧ r.st.calls = s.calls ∨
            h.hash.Passes (old ++ c.stored h n) c.hashcode ∧ r.rv = .ok ∧
              r.st.files = htErase (Function.update s.files n.fileid (some c')) n.fileid))) := by
  have hok := hi.ctx _ c hc
  rcases handleFile_cases hr with ⟨hc', -⟩ | ⟨c₀, path, rv, c', fs', hc₀, hpath, hstore, hcase⟩
  · rw [hc] at hc'; cases hc'
  rw [hc] at hc₀
  cases hc₀
  obtain ⟨rfl, -⟩ := partPath_eq_ok hpath
  obtain ⟨-, hsame, happ⟩ := storeBlock_keeps hok.toWf hb hn hstore
  obtain ⟨hcomp, hdisk⟩ := storeBlock_completes hok.toWf hb hn hstore
  refine ⟨c', fs', hsame, happ, ?_⟩
  rcases hcase with ⟨hne, rfl⟩ | ⟨hrv, hcap, hfin⟩
  · refine .inl ⟨fun hnc => ?_, rfl⟩
    obtain ⟨h1, h2⟩ := hcomp.2 hnc
    rcases hne with h' | h'
    · exact h' h1
    · exact h' h2
  have hcomp' := hcomp.1 ⟨hrv, hcap⟩
  obtain ⟨a, ha, -⟩ := hok.fcb
  have hreg : RegOk { s with files := Function.update s.files n.fileid (some c'), fs := fs' } := hi.reg.of_eq rfl rfl rfl
  rw [← hsame.wfname] at hfin
  have hout := finish_outcome hreg (hsame.fcb.trans ha) hfin
  rw [hsame.wfname, hsame.hashcode, hsame.fileid, hok.fileid] at hout
  rcases hout with ⟨hno, hrv', hst⟩ | ⟨content, hd, hren, hdir, hfs, hcheck⟩
  · refine .inr (.inl ⟨hcomp', hno.imp_left fun hnone => ?_, hrv', hst⟩)
    have hsome := happ.isSome
    rw [show fs'.disk (s.part c.wfname) = none from hnone, Option.isSome_none] at hsome
    exact Option.isSome_eq_false_iff.1 hsome.symm |> Option.isNone_iff_eq_none.1
  · replace hd : fs'.disk (s.part c.wfname) = some content := hd
    obtain ⟨old, hold⟩ := Option.isSome_iff_exists.1 (show (s.fs.disk (s.part c.wfname)).isSome by rw [← happ.isSome, hd]; rfl)
    rw [hdisk hrv old hold] at hd
    cases hd
    exact .inr (.inr ⟨hcomp', old, hold, hren, hdir, hfs, hcheck⟩)

theorem handleFile_wfname (hi : Inv s) {b : Bytes} (hb : n.content = some b) (hn : b.length = n.ctlen)
    (hr : handleFile h s n = .ok r) {g : UInt32} {c' : Nctx} (hg : r.st.files g = some c') :
    ∃ c, s.files g = some c ∧ c.wfname = c'.wfname := by
  by_cases hgk : g = n.fileid
  · subst hgk
    rcases handleFile_cases hr with ⟨hc, rfl⟩ | ⟨c, path, rv, d, fs', hc, hpath, hstore, hcase⟩
    · rw [hc] at hg; cases hg
    obtain ⟨-, hsame, -⟩ := storeBlock_keeps (hi.ctx _ c hc).toWf hb hn hstore
    have hd : ∀ {t : State}, t.files = Function.update s.files n.fileid (some d) → r.st.files = t.files →
        ∃ c, s.files n.fileid = some c ∧ c.wfname = c'.wfname := by
      intro t ht hrt
      rw [hrt, ht, Function.update_self] at hg
      cases hg
      exact ⟨c, hc, hsame.wfname.symm⟩
    rcases hcase with ⟨-, rfl⟩ | ⟨-, -, hfin⟩
    · exact hd rfl rfl
    · rcases finish_files (hsame.fileid.trans (hi.ctx _ c hc).fileid) hfin with ⟨-, hf⟩ | ⟨-, hf⟩
      · rw [hf] at hg; cases hg
      · exact hd rfl hf
  · rw [(handleFile_effect hi hb hn hr).files g hgk] at hg
    exact ⟨c', hg, rfl⟩

theorem encodeReply_state {p : Packet} (hr : encodeReply s p = .ok r) : r.st = s := by
  obtain ⟨⟨rv, v, alen⟩, -, hr⟩ := bind_eq_ok.1 hr
  simp only [State.ret] at hr
  split at hr <;> cases hr <;> rfl

theorem makeFile_state (fpath fname : Bytes) {t : MsgType} {i : Int} (hr : makeFile h s fpath fname t i = .ok r) :
    r.st = s := by
  unfold makeFile at hr
  by_cases hi : 0 > i
  · simp only [if_pos hi, State.ret, Except.ok.injEq] at hr
    rw [← hr]
  · rw [if_neg hi] at hr
    obtain ⟨⟨rv, v⟩, -, hr⟩ := bind_eq_ok.1 hr
    simp only at hr
    split at hr
    · simp only [State.ret, Except.ok.injEq] at hr
      rw [← hr]
    · exact encodeReply_state hr

theorem handleGiveme_state (hr : handleGiveme h s n = .ok r) : r.st = s := by
  unfold handleGiveme at hr
  cases hf : s.senderfiles n.fileid with
  | none =>
    simp only [hf, State.ret, Except.ok.injEq] at hr
    rw [← hr]
  | some fullpath =>
    simp only [hf] at hr
    obtain ⟨u, -, hr⟩ := bind_eq_ok.1 hr
    obtain ⟨⟨rv, blocks⟩, -, hr⟩ := bind_eq_ok.1 hr
    simp only at hr
    split at hr
    · simp only [State.ret, Except.ok.injEq] at hr
      rw [← hr]
    · obtain ⟨r', hr', hr⟩ := bind_eq_ok.1 hr
      cases hr
      split at hr'
      · exact makeFile_state (r := r') (fileCut fullpath) (fileBname fullpath) (t := .fin) hr'
      · exact makeFile_state (r := r') (fileCut fullpath) (fileBname fullpath) (t := .file) hr'

/-- **What a call that returns did**: it changed nothing, or handled a HELLO, or handled a block. -/
theorem receive_kinds (hr : receive h s msg = .ok r) :
    (r.st = s ∧ ∀ n, parse msg = .ok (.ok, n) → MsgType.ofCode n.type ≠ some .hello ∧ ¬ n.IsBlock) ∨
    (∃ n, parse msg = .ok (.ok, n) ∧ MsgType.ofCode n.type = some .hello ∧ handleHello h s n = .ok r) ∨
    ∃ n b, parse msg = .ok (.ok, n) ∧ n.IsBlock ∧ n.content = some b ∧ b.length = n.ctlen ∧ handleFile h s n = .ok r := by
  rcases receive_cases hr with ⟨rv, n, hp, hrv, rfl⟩ | ⟨n, hp, hd⟩
  · refine .inl ⟨rfl, fun n' hn' => ?_⟩
    rw [hp] at hn'
    cases hn'
    exact absurd rfl hrv
  by_cases hblock : n.IsBlock
  · obtain ⟨b, hb, hl⟩ := parse_file hp hblock
    rw [receive_block hp hblock] at hr
    exact .inr (.inr ⟨n, b, hp, hblock, hb, hl, hr⟩)
  by_cases hhello : MsgType.ofCode n.type = some .hello
  · rw [dispatch, hhello] at hd
    exact .inr (.inl ⟨n, hp, hhello, hd⟩)
  refine .inl ⟨?_, fun n' hn' => by rw [hp] at hn'; cases hn'; exact ⟨hhello, hblock⟩⟩
  unfold dispatch at hd
  cases ht : MsgType.ofCode n.type with
  | none => rw [ht] at hd; cases hd; rfl
  | some t =>
    rw [ht] at hd
    cases t with
    | hello => exact absurd ht hhello
    | ack => cases hd; rfl
    | file => exact absurd (.inl ht) hblock
    | fin => exact absurd (.inr ht) hblock
    | giveme => exact handleGiveme_state hd

theorem key_hello (ht : MsgType.ofCode n.type = some .hello) : n.key = some (nftpHash n.name) := by
  simp only [Packet.key, ht]

theorem Packet.IsBlock.key_eq (hblock : n.IsBlock) : n.key = some n.fileid := by
  rcases hblock with ht | ht <;> simp only [Packet.key, ht]

theorem concerns_hello (ht : MsgType.ofCode n.type = some .hello) :
    Concerns s n = fun w => pickName s n.name = .ok (some w) := by
  funext w
  simp only [Concerns, ht]

theorem Packet.IsBlock.concerns (hblock : n.IsBlock) :
    Concerns s n = fun w => ∃ c, s.files n.fileid = some c ∧ c.wfname = w := by
  funext w
  rcases hblock with ht | ht <;> simp only [Concerns, ht]

/-- **What a message leaves alone**: everything, or all but the transfer it concerns, that transfer's two paths, and the
record bound to it. -/
theorem receive_effect (hi : Inv s) (hr : receive h s msg = .ok r) :
    r.st = s ∨ ∃ n key, parse msg = .ok (.ok, n) ∧ n.key = some key ∧ Effect s key (Concerns s n) r.st := by
  rcases receive_kinds hr with ⟨hst, -⟩ | ⟨n, hp, ht, hr⟩ | ⟨n, b, hp, hblock, hb, hn, hr⟩
  · exact .inl hst
  · refine .inr ⟨n, nftpHash n.name, hp, key_hello ht, ?_⟩
    rw [concerns_hello ht]
    exact handleHello_effect hi hr
  · refine .inr ⟨n, n.fileid, hp, hblock.key_eq, ?_⟩
    rw [hblock.concerns]
    exact handleFile_effect hi hb hn hr

/-- What an accepted HELLO leaves: a context, an empty part file, and the record bound. -/
theorem hello_started (hi : Inv s) (hp : parse msg = .ok (.ok, n)) (ht : MsgType.ofCode n.type = some .hello)
    (hr : receive h s msg = .ok r) (hrv : r.rv = .ok) :
    s.files (nftpHash n.name) = none ∧ r.rmsg = some (ackOf n.id n.name) ∧ r.rlen = 10 ∧ ∃ w a rcd,
      pickName s n.name = .ok (some w) ∧ NameFits r.st.recvdir w ∧ s.heap a = some rcd ∧
      (rcd.fname = n.name ∨ rcd.fname = star) ∧ r.st.recvdir = s.recvdir ∧
      r.st.files = Function.update s.files (nftpHash n.name) (some (helloCtx n a w)) ∧
      r.st.fs = s.fs.created (s.part w) ∧ r.st.heap a = some rcd := by
  rw [receive_of_parse h s hp, dispatch] at hr
  simp only [ht] at hr
  rcases handleHello_cases hi.reg hr with ⟨-, rfl⟩ | ⟨-, a, s₁, w, path, -, hb, hpick, hpath, hcase⟩
  · cases hrv
  obtain ⟨rfl, hfits⟩ := partPath_eq_ok hpath
  rcases hcase with ⟨-, rfl⟩ | ⟨-, rv, rmsg, rlen, hcode, rfl⟩
  · cases hrv
  rcases hcode with ⟨-, rfl, -, -⟩ | ⟨hnone, -, rfl, rfl⟩
  · cases hrv
  obtain ⟨rcd, hrcd, hname⟩ := hb.record
  have hdir : s₁.recvdir = s.recvdir := (congrArg State.recvdir hb.eq).trans rfl
  refine ⟨hnone, rfl, rfl, w, a, rcd, hpick, ?_, hrcd, hname, hdir, rfl, rfl, hb.heap a rcd hrcd⟩
  show NameFits s₁.recvdir w
  rw [hdir]
  exact hfits

/-! ## Every reachable state -/

theorem booted_inv (hb : Booted s) : Inv s := by
  obtain ⟨dir, blksz, fs, hinit⟩ := hb
  let s₀ := State.boot (Option.map cstr dir) blksz fs
  have hrec : Records s₀ := ⟨vecAlloc_wf _, rfl, rfl, List.nodup_nil, fun a => by simp [s₀, State.boot, State.regs],
    fun a ha => (by cases ha)⟩
  obtain ⟨reg, hpush, -, hrec', hregs⟩ := pushCb_ok hrec (show 0 < nftpFiles by decide) ⟨star, none, 0⟩
  have hreg : protoRegister s₀ (some star) none 0 = pushCb s₀ ⟨star, none, 0⟩ := rfl
  have hrun : protoInit s₀ = (protoRegister s₀ (some star) none 0 >>= fun x =>
      if x.1 ≠ .ok then .ok (x.1, x.2)
      else .ok (.ok, { x.2 with files := fun _ => none, senderfiles := fun _ => none })) := rfl
  rw [hrun, hreg, hpush] at hinit
  cases hinit
  refine ⟨RegOk.of_eq (s := { s₀ with fcbReg := reg, heap := Function.update s₀.heap s₀.brk (some ⟨star, none, 0⟩), brk := s₀.brk + 1 })
    ⟨hrec', fun a b ra rb ha hb hn => ?_, ?_⟩ rfl rfl rfl, fun g c hg => (by cases hg)⟩
  · have h0 : ∀ x rx, Function.update s₀.heap s₀.brk (some (⟨star, none, 0⟩ : FileCb)) x = some rx → x = s₀.brk := by
      intro x rx hx
      by_contra hne
      rw [Function.update_of_ne hne] at hx
      cases hx
    rw [h0 a ra ha, h0 b rb hb]
  · exact ⟨s₀.brk, ⟨star, none, 0⟩, by rw [hregs]; rfl, by simp only [Function.update_self], rfl⟩

theorem makeHello_state (fpath fname : Bytes) (key : Int) (hr : makeHello h s fpath fname key = .ok r) :
    r.st = { s with senderfiles := r.st.senderfiles } := by
  unfold makeHello at hr
  simp only [State.ret] at hr
  split at hr
  · cases hr; rfl
  split at hr
  · cases hr
  split at hr
  · cases hr; rfl
  split at hr
  · cases hr; rfl
  obtain ⟨u, -, hr⟩ := bind_eq_ok.1 hr
  split at hr
  · cases hr; rfl
  · rw [encodeReply_state hr]

/-- Only a HELLO made changes anything. -/
theorem protoMaker_still {fpath : Option Bytes} {t : Option MsgType} {key n : Int} (ht : t ≠ some .hello)
    (hr : protoMaker h s fpath t key n = .ok r) : r.st = s := by
  cases fpath with
  | none => cases hr; rfl
  | some fpath =>
    cases t with
    | none => exact encodeReply_state (p := Packet.alloc) hr
    | some t =>
      cases t with
      | hello => exact absurd rfl ht
      | ack =>
        unfold protoMaker at hr
        exact encodeReply_state hr
      | file => exact makeFile_state (fileCut fpath) (fileBname fpath) (t := .file) hr
      | fin => exact makeFile_state (fileCut fpath) (fileBname fpath) (t := .fin) hr
      | giveme =>
        unfold protoMaker at hr
        simp only [State.ret] at hr
        split at hr
        · cases hr; rfl
        · exact encodeReply_state hr

theorem protoMaker_state {fpath : Option Bytes} {t : Option MsgType} {key n : Int}
    (hr : protoMaker h s fpath t key n = .ok r) : r.st = { s with senderfiles := r.st.senderfiles } := by
  by_cases ht : t = some .hello
  · rw [ht] at hr
    cases fpath with
    | none => cases hr; rfl
    | some fpath => exact makeHello_state (fileCut fpath) (fileBname fpath) key hr
  · rw [protoMaker_still ht hr]

theorem erase_files {g key : UInt32} {t : UInt32 → Option Nctx} (hg : htErase t key g = some c) : t g = some c := by
  unfold htErase at hg
  by_cases hgk : g = key
  · rw [hgk, Function.update_self] at hg; cases hg
  · rwa [Function.update_of_ne hgk] at hg

/-- **What the calls other than the handler do**: they keep the registry in order and add no context. -/
structure Quiet (s s' : State) : Prop where
  reg : RegOk s'
  keeps : Keeps s s'
  files : ∀ g c, s'.files g = some c → s.files g = some c

theorem Quiet.files_none (hq : Quiet s s') {g : UInt32} (hnone : s.files g = none) : s'.files g = none := by
  cases hc : s'.files g with
  | none => rfl
  | some c =>
    rw [hq.files g c hc] at hnone
    cases hnone

theorem Quiet.inv (hi : Inv s) (hq : Quiet s s') : Inv s' := hi.of_keeps hq.reg hq.keeps hq.files

theorem quiet_of_eq (hi : Inv s) (hreg : s'.fcbReg = s.fcbReg) (hheap : s'.heap = s.heap) (hbrk : s'.brk = s.brk)
    (hfiles : ∀ g c, s'.files g = some c → s.files g = some c) : Quiet s s' :=
  ⟨hi.reg.of_eq hreg hheap hbrk, ⟨by rw [hbrk], fun a r' _ hr' => ⟨r', by rw [← hheap]; exact hr', rfl⟩⟩, hfiles⟩

def Fs.removed (fs : Fs) (path : Path) : Fs :=
  { disk := Function.update fs.disk path none, ops := fs.ops ++ [.remove path] }

theorem removed_disk (fs : Fs) (path q : Path) :
    (fs.removed path).disk q = fs.disk q ∨ q = path ∧ (fs.removed path).disk q = none := by
  by_cases hq : q = path
  · exact .inr ⟨hq, by rw [hq]; exact Function.update_self ..⟩
  · exact .inl (Function.update_of_ne hq _ _)

theorem fileRemove_eq (ok : Bool) (fs : Fs) (path : Path) :
    fileRemove ok fs path = match fs.disk path with
      | none => (.filepath, fs)
      | some _ => if ok = false then (.file, fs) else (.ok, fs.removed path) := by
  unfold fileRemove fileExist
  cases fs.disk path <;> rfl

/-- **The ways a stop is answered**: there is no such transfer; its part file cannot be removed, and only its context goes;
or its part file goes as well, and its record unless that is the default one. -/
theorem recvStop_cases (hreg : RegOk s) {fname : Bytes} {rv : Rv} (hr : protoRecvStop h s fname = .ok (rv, s')) :
    (s.files (nftpHash (fileBname fname)) = none ∧ rv = .ht ∧ s' = s) ∨
    ∃ c, s.files (nftpHash (fileBname fname)) = some c ∧ NameFits s.recvdir c.wfname ∧
      ((rv ≠ .ok ∧ (s.fs.disk (s.part c.wfname) = none ∨ h.remove = false) ∧
          s' = { s with files := htErase s.files (nftpHash (fileBname fname)) }) ∨
       (rv = .ok ∧ (s.fs.disk (s.part c.wfname)).isSome ∧ h.remove = true ∧ RegOk s' ∧ Keeps s s' ∧
          s' = { s.withReg s' with
            files := htErase s.files (nftpHash (fileBname fname)), fs := s.fs.removed (s.part c.wfname) } ∧
          ∀ b, s'.heap b = if c.fcb = some b ∧ (∃ r, s.heap b = some r ∧ r.fname ≠ star) then none else s.heap b)) := by
  unfold protoRecvStop at hr
  simp only at hr
  cases hc : s.files (nftpHash (fileBname fname)) with
  | none =>
    rw [hc] at hr
    cases hr
    exact .inl ⟨rfl, rfl, rfl⟩
  | some c =>
    rw [hc] at hr
    obtain ⟨path, hpath, hr⟩ := bind_eq_ok.1 hr
    obtain ⟨rfl, hfits⟩ := partPath_eq_ok hpath
    refine .inr ⟨c, rfl, hfits, ?_⟩
    rw [fileRemove_eq] at hr
    cases hd : s.fs.disk (s.part c.wfname) with
    | none =>
      rw [hd] at hr
      cases hr
      exact .inl ⟨nofun, .inl rfl, rfl⟩
    | some old =>
      rw [hd] at hr
      cases hrem : h.remove with
      | false =>
        rw [hrem] at hr
        cases hr
        exact .inl ⟨nofun, .inr rfl, rfl⟩
      | true =>
        simp only [hrem, Bool.true_eq_false, if_false, ne_eq, not_true_eq_false] at hr
        obtain ⟨s₁, hdrop, hr⟩ := bind_eq_ok.1 hr
        cases hr
        have hreg' : RegOk { s with
            files := htErase s.files (nftpHash (fileBname fname)), fs := s.fs.removed (s.part c.wfname) } :=
          hreg.of_eq rfl rfl rfl
        obtain ⟨s₂, hdrop', hok, hk, hs₂, hheap⟩ := dropCb_spec hreg' c
        rw [hdrop'] at hdrop
        cases hdrop
        exact .inr ⟨rfl, rfl, rfl, hok, ⟨hk.brk_le, hk.fname⟩, hs₂, hheap⟩

theorem recvStop_quiet (hi : Inv s) {fname : Bytes} {rv : Rv} (hr : protoRecvStop h s fname = .ok (rv, s')) :
    Quiet s s' := by
  rcases recvStop_cases hi.reg hr with ⟨-, -, rfl⟩ | ⟨c, -, -, ⟨-, -, rfl⟩ | ⟨-, -, -, hreg, hk, hs', -⟩⟩
  · exact quiet_of_eq hi rfl rfl rfl fun _ _ hg => hg
  · exact quiet_of_eq hi rfl rfl rfl fun _ _ hg => erase_files hg
  · refine ⟨hreg, hk, fun g d hg => ?_⟩
    rw [congrArg State.files hs'] at hg
    exact erase_files hg

/-- Stopping a transfer removes a file at most. -/
theorem recvStop_shrinks (hi : Inv s) {fname : Bytes} {rv : Rv} (hr : protoRecvStop h s fname = .ok (rv, s')) :
    s'.recvdir = s.recvdir ∧ ∀ q, s'.fs.disk q = s.fs.disk q ∨ s'.fs.disk q = none := by
  rcases recvStop_cases hi.reg hr with ⟨-, -, rfl⟩ | ⟨c, -, -, ⟨-, -, rfl⟩ | ⟨-, -, -, -, -, hs', -⟩⟩
  · exact ⟨rfl, fun q => .inl rfl⟩
  · exact ⟨rfl, fun q => .inl rfl⟩
  · refine ⟨(congrArg State.recvdir hs').trans rfl, fun q => ?_⟩
    rw [congrArg State.fs hs']
    exact (removed_disk s.fs (s.part c.wfname) q).imp_right And.right

/-! ### The calls of a step -/

theorem step_register {fname : Option Bytes} {cb : Option Nat} {arg : Nat} (hreg : RegOk s)
    (hs : Step s (.register fname cb arg) s') :
    RegOk s' ∧ Keeps s s' ∧ s' = s.withReg s' ∧ Registers s fname s' := by
  obtain ⟨⟨rv, s₁⟩, hr, hs⟩ := bind_eq_ok.1 hs
  cases hs
  obtain ⟨rv', s₂, hr', hok, hk, hs₂, -, hrecs⟩ := protoRegister_spec hreg fname cb arg
  rw [hr'] at hr
  cases hr
  exact ⟨hok, hk, hs₂, hrecs⟩

theorem step_unregister {fname : Option Bytes} (hreg : RegOk s) (hs : Step s (.unregister fname) s') :
    RegOk s' ∧ Keeps s s' ∧ s' = s.withReg s' ∧ ∀ b, s'.heap b = if s.Releases fname b then none else s.heap b := by
  obtain ⟨⟨rv, s₁⟩, hr, hs⟩ := bind_eq_ok.1 hs
  cases hs
  obtain ⟨rv', s₂, hr', hok, hk, hs₂, -, hheap⟩ := protoUnregister_spec hreg fname
  rw [hr'] at hr
  cases hr
  exact ⟨hok, hk, hs₂, hheap⟩

theorem step_recvStop {fname : Bytes} (hs : Step s (.recvStop h fname) s') :
    ∃ rv, protoRecvStop h s fname = .ok (rv, s') := by
  obtain ⟨⟨rv, s₁⟩, hr, hs⟩ := bind_eq_ok.1 hs
  cases hs
  exact ⟨rv, hr⟩

theorem step_maker {fpath : Option Bytes} {t : Option MsgType} {key n : Int} (hs : Step s (.maker h fpath t key n) s') :
    s' = { s with senderfiles := s'.senderfiles } := by
  obtain ⟨r, hr, hs⟩ := bind_eq_ok.1 hs
  cases hs
  exact protoMaker_state hr

theorem step_quiet {e : Event} (hi : Inv s) (hs : Step s e s') (he : ∀ h m, e ≠ .msg h m) : Quiet s s' := by
  cases e with
  | msg h m => exact absurd rfl (he h m)
  | register fname cb arg =>
    obtain ⟨hreg, hk, hs', -⟩ := step_register hi.reg hs
    exact ⟨hreg, hk, fun g d hg => by rw [congrArg State.files hs'] at hg; exact hg⟩
  | unregister fname =>
    obtain ⟨hreg, hk, hs', -⟩ := step_unregister hi.reg hs
    exact ⟨hreg, hk, fun g d hg => by rw [congrArg State.files hs'] at hg; exact hg⟩
  | recvStop h fname =>
    obtain ⟨rv, hr⟩ := step_recvStop hs
    exact recvStop_quiet hi hr
  | maker h fpath t key n =>
    rw [step_maker hs]
    exact quiet_of_eq hi rfl rfl rfl fun _ _ hg => hg
  | setRecvdir dir => cases hs; exact quiet_of_eq hi rfl rfl rfl fun _ _ hg => hg
  | setBlocksz blksz => cases hs; exact quiet_of_eq hi rfl rfl rfl fun _ _ hg => hg
  | disk disk => cases hs; exact quiet_of_eq hi rfl rfl rfl fun _ _ hg => hg

/-- **What one step is**: a message handled, or a call that adds no context. -/
theorem step_cases {e : Event} (hi : Inv s) (hs : Step s e s') :
    (∃ h m r, e = .msg h m ∧ receive h s m = .ok r ∧ r.st = s') ∨ (∀ h m, e ≠ .msg h m) ∧ Quiet s s' := by
  by_cases he : ∃ h m, e = .msg h m
  · obtain ⟨h, m, rfl⟩ := he
    obtain ⟨r, hr, hs⟩ := bind_eq_ok.1 hs
    cases hs
    exact .inl ⟨h, m, r, rfl, hr, rfl⟩
  · have hne : ∀ h m, e ≠ .msg h m := fun h m heq => he ⟨h, m, heq⟩
    exact .inr ⟨hne, step_quiet hi hs hne⟩

theorem receive_inv (hi : Inv s) (hr : receive h s msg = .ok r) : Inv r.st := by
  rcases receive_effect hi hr with he | ⟨n, key, -, -, he⟩
  · rw [he]; exact hi
  · exact he.inv

/-- **One step keeps the invariant.** -/
theorem step_inv {e : Event} (hi : Inv s) (hs : Step s e s') : Inv s' := by
  rcases step_cases hi hs with ⟨h, m, r, -, hr, rfl⟩ | ⟨-, hq⟩
  · exact receive_inv hi hr
  · exact hq.inv hi

/-- **The invariant holds in every reachable state.** -/
theorem Live.inv (hl : Live s) : Inv s :=
  Reachable.invariant (fun _ => booted_inv) (fun _ _ _ hi hs => step_inv hi hs) hl

end Nftp
