import Nftp.Delivery
import Nftp.Records
import Nftp.Simulation
/-!
# Isolation — a transfer sees nothing of the others

Two receivers mirror each other in a transfer when they hold the same of it, each under a record of its own.  A block of the
transfer is answered alike by both, whatever the C library answers and whether it succeeds, fails or runs into undefined
behaviour; what has nothing to do with the transfer leaves it as it was.  So a transfer goes the same way among others as it
does alone.
-/
namespace Nftp

open Lib

variable {h : Host} {s s' v v' : State} {n : Packet} {msg : Bytes} {r : Ret} {c : Nctx} {g : UInt32} {w : Bytes}
  {b : Option Addr}

/-! ## Storing a block -/

/-- The context of the other receiver, with the record it is bound to there. -/
def Nctx.under (c : Nctx) (b : Option Addr) : Nctx := { c with fcb := b }

/-- The same code, the same context but for its record, the same part file. -/
def StoredAlike (path : Path) (b : Option Addr) (x y : Rv × Nctx × Fs) : Prop :=
  y.1 = x.1 ∧ y.2.1 = x.2.1.under b ∧ y.2.2.disk path = x.2.2.disk path

theorem fileAppend_alike (ans : WriteAns) {path : Path} {fs fs' : Fs} (hd : fs'.disk path = fs.disk path) (str : Bytes)
    (sz : Nat) : (fileAppend ans fs' path str sz).1 = (fileAppend ans fs path str sz).1 ∧
      (fileAppend ans fs' path str sz).2.disk path = (fileAppend ans fs path str sz).2.disk path := by
  unfold fileAppend
  rw [hd]
  cases fs.disk path with
  | none => exact ⟨rfl, hd⟩
  | some old =>
    by_cases ho : ans = .noOpen
    · simp only [if_pos ho]
      exact ⟨trivial, hd⟩
    · simp only [if_neg ho, Function.update_self]
      exact ⟨trivial, trivial⟩

theorem drain_alike (h : Host) {path : Path} : ∀ (fuel k : Nat) (c : Nctx) {fs fs' : Fs}, fs'.disk path = fs.disk path →
    Alike Eq (StoredAlike path b) (drain h path c fs k fuel) (drain h path (c.under b) fs' k fuel)
  | 0, _, _, _, _, _ => .error rfl
  | fuel + 1, k, c, fs, fs', hd => by
    unfold drain
    refine Alike.ite (fun _ => .ok ⟨rfl, rfl, hd⟩) fun _ => ?_
    rcases he : c.entries[c.nextid + 1]? with _ | ⟨_ | body, len⟩
    · simp only [Nctx.under, he]
      exact .error rfl
    · simp only [Nctx.under, he]
      exact .ok ⟨rfl, rfl, hd⟩
    · obtain ⟨hrv, hdisk⟩ := fileAppend_alike (h.append k) hd body len
      simp only [Nctx.under, he, hrv]
      refine Alike.ite (fun _ => .ok ⟨rfl, rfl, hdisk⟩) fun _ => ?_
      exact drain_alike h fuel (k + 1) { c with nextid := c.nextid + 1, entries := c.entries.set (c.nextid + 1) ⟨none, 0⟩ } hdisk

theorem storeBlock_alike (h : Host) {path : Path} (c : Nctx) {fs fs' : Fs} (n : Packet) (hd : fs'.disk path = fs.disk path) :
    Alike Eq (StoredAlike path b) (storeBlock h path c fs n) (storeBlock h path (c.under b) fs' n) := by
  unfold storeBlock
  refine Alike.ite (fun _ => ?_) fun _ => ?_
  · obtain ⟨hrv, hdisk⟩ := fileAppend_alike (h.append 0) hd (n.content.getD []) n.ctlen
    simp only [hrv]
    refine Alike.ite (fun _ => .ok ⟨rfl, rfl, hdisk⟩) fun _ => ?_
    refine (drain_alike h _ 1 c hdisk).bind ?_
    rintro ⟨rv, c₁, fs₁⟩ ⟨rv', c₂, fs₂⟩ ⟨hrv', hc', hd'⟩
    obtain rfl : rv' = rv := hrv'
    obtain rfl : c₂ = c₁.under b := hc'
    exact Alike.ite (fun _ => .ok ⟨rfl, rfl, hd'⟩) fun _ => .ok ⟨rfl, rfl, hd'⟩
  · rcases he : c.entries[n.blockseq.toNat]? with _ | e
    · simp only [Nctx.under, he]
      exact .error rfl
    · simp only [Nctx.under, he]
      exact .ok ⟨rfl, rfl, hd⟩

/-! ## The blocks of the transfer -/

/-- Of the transfer under `g`, saved under `w`, the second receiver holds what the first one holds; and since their logs
were `k` and `k'`, the same callbacks have run for it. -/
structure Mirrors (g : UInt32) (w : Bytes) (k k' : List Call) (s v : State) : Prop where
  recvdir : v.recvdir = s.recvdir
  part : v.fs.disk (s.part w) = s.fs.disk (s.part w)
  final : v.fs.disk (s.final w) = s.fs.disk (s.final w)
  calls : ∃ cs, s.calls.filter (·.fileid = g) = k ++ cs ∧ v.calls.filter (·.fileid = g) = k' ++ cs
  files : (s.files g = none ∧ v.files g = none) ∨ ∃ c a b rcd, s.files g = some c ∧ v.files g = some (c.under (some b)) ∧
    c.wfname = w ∧ c.fcb = some a ∧ s.heap a = some rcd ∧ v.heap b = some rcd

variable {k k' : List Call}

/-- The same answer, and the transfer goes on the same way. -/
def AnsweredAlike (g : UInt32) (w : Bytes) (k k' : List Call) (r r' : Ret) : Prop :=
  r'.rv = r.rv ∧ r'.rmsg = r.rmsg ∧ r'.rlen = r.rlen ∧ Mirrors g w k k' r.st r'.st

theorem Mirrors.renamed (hm : Mirrors g w k k' s v) (content : Bytes) :
    Mirrors g w k k' { s with fs := s.fs.renamed (s.part w) (s.final w) content }
      { v with fs := v.fs.renamed (s.part w) (s.final w) content } where
  recvdir := hm.recvdir
  part := (renamed_src v.fs (part_ne_final s w) content).trans (renamed_src s.fs (part_ne_final s w) content).symm
  final := (renamed_dst v.fs _ _ content).trans (renamed_dst s.fs _ _ content).symm
  calls := hm.calls
  files := hm.files

/-- The callback is run, and the transfer removed from the table, with each receiver's own record. -/
theorem Mirrors.close {a b : Addr} {rcd : FileCb} (hs : RegOk s) (hv : RegOk v) (hm : Mirrors g c.wfname k k' s v)
    (hg : c.fileid = g) (ha : c.fcb = some a) (hsa : s.heap a = some rcd) (hvb : v.heap b = some rcd) :
    ∃ s₁ v₁, runCb s c = .ok s₁ ∧ runCb v (c.under (some b)) = .ok v₁ ∧ Mirrors g c.wfname k k'
      { s₁ with files := htErase s₁.files c.fileid } { v₁ with files := htErase v₁.files c.fileid } := by
  subst hg
  rcases runCb_spec hs ha with ⟨hno, -⟩ | ⟨rcd₁, s₁, hrcd₁, hrun, -, -, hs₁, -⟩
  · rw [hsa] at hno
    cases hno
  have hbv : (c.under (some b)).fcb = some b := rfl
  rcases runCb_spec hv hbv with ⟨hno, -⟩ | ⟨rcd₂, v₁, hrcd₂, hrun', -, -, hv₁, -⟩
  · rw [hvb] at hno
    cases hno
  obtain rfl : rcd = rcd₁ := Option.some.inj (hsa.symm.trans hrcd₁)
  obtain rfl : rcd = rcd₂ := Option.some.inj (hvb.symm.trans hrcd₂)
  refine ⟨s₁, v₁, hrun, hrun', ?_⟩
  have hdirs : s₁.recvdir = s.recvdir := (congrArg State.recvdir hs₁).trans rfl
  have hdirv : v₁.recvdir = v.recvdir := (congrArg State.recvdir hv₁).trans rfl
  have hfss : s₁.fs = s.fs := (congrArg State.fs hs₁).trans rfl
  have hfsv : v₁.fs = v.fs := (congrArg State.fs hv₁).trans rfl
  have hcs : s₁.calls = s.calls ++ callOf c.fileid rcd := (congrArg State.calls hs₁).trans rfl
  have hcv : v₁.calls = v.calls ++ callOf c.fileid rcd := (congrArg State.calls hv₁).trans rfl
  refine ⟨hdirv.trans (hm.recvdir.trans hdirs.symm), ?_, ?_, ?_, .inl ⟨Function.update_self .., Function.update_self ..⟩⟩
  · show v₁.fs.disk (s₁.part c.wfname) = s₁.fs.disk (s₁.part c.wfname)
    rw [part_congr hdirs, hfss, hfsv]
    exact hm.part
  · show v₁.fs.disk (s₁.final c.wfname) = s₁.fs.disk (s₁.final c.wfname)
    rw [final_congr hdirs, hfss, hfsv]
    exact hm.final
  · obtain ⟨cs, hcs', hcv'⟩ := hm.calls
    refine ⟨cs ++ (callOf c.fileid rcd).filter (·.fileid = c.fileid), ?_, ?_⟩
    · show s₁.calls.filter (·.fileid = c.fileid) = _
      rw [hcs, List.filter_append, hcs', List.append_assoc]
    · show v₁.calls.filter (·.fileid = c.fileid) = _
      rw [hcv, List.filter_append, hcv', List.append_assoc]

/-- **The end of the transfer**, with each receiver's own record. -/
theorem Mirrors.finish (hs : RegOk s) (hv : RegOk v) (hm : Mirrors g w k k' s v) (hc : s.files g = some c)
    (hg : c.fileid = g) : ∃ b, v.files g = some (c.under b) ∧
      Alike Eq (AnsweredAlike g w k k') (finish h s c (s.part w)) (finish h v (c.under b) (s.part w)) := by
  rcases hm.files with ⟨hnone, -⟩ | ⟨c', a, b, rcd, hc', hcv, rfl, ha, hsa, hvb⟩
  · rw [hnone] at hc
    cases hc
  rw [hc] at hc'
  cases hc'
  refine ⟨some b, hcv, ?_⟩
  unfold Nftp.finish
  have hpath : fileFullpath v.recvdir (c.under (some b)).wfname = fileFullpath s.recvdir c.wfname := by rw [hm.recvdir]; rfl
  rw [hpath]
  cases hq : fileFullpath s.recvdir c.wfname with
  | error e => exact .error rfl
  | ok q =>
    obtain rfl := fullpath_eq_ok hq
    simp only [bind_ok, fileRename_eq, hm.part]
    cases hd : s.fs.disk (s.part c.wfname) with
    | none => exact .ok ⟨rfl, rfl, rfl, hm⟩
    | some content =>
      cases h.rename with
      | false => exact .ok ⟨rfl, rfl, rfl, hm⟩
      | true =>
        have hren := hm.renamed content
        have hds : (s.fs.renamed (s.part c.wfname) (s.final c.wfname) content).disk (s.final c.wfname) = some content :=
          renamed_dst ..
        have hdv : (v.fs.renamed (s.part c.wfname) (s.final c.wfname) content).disk (s.final c.wfname) = some content :=
          renamed_dst ..
        simp only [Bool.true_eq_false, if_false, ne_eq, not_true_eq_false, fileHash_eq h.hash hds, fileHash_eq h.hash hdv]
        by_cases ho : h.hash = .noOpen
        · simp only [if_pos ho]
          exact .ok ⟨rfl, rfl, rfl, hren⟩
        by_cases hshort : h.hash = .short ∧ 0 < content.length
        · simp only [if_neg ho, if_pos hshort]
          exact .ok ⟨rfl, rfl, rfl, hren⟩
        simp only [if_neg ho, if_neg hshort, not_true_eq_false, if_false]
        refine Alike.ite (fun _ => .ok ⟨rfl, rfl, rfl, hren⟩) fun _ => ?_
        have hs' : RegOk { s with fs := s.fs.renamed (s.part c.wfname) (s.final c.wfname) content } := hs.of_eq rfl rfl rfl
        have hv' : RegOk { v with fs := v.fs.renamed (s.part c.wfname) (s.final c.wfname) content } := hv.of_eq rfl rfl rfl
        obtain ⟨s₁, v₁, hrun, hrun', hm₁⟩ := hren.close hs' hv' hg ha hsa hvb
        rw [hrun, hrun', bind_ok, bind_ok]
        exact .ok ⟨rfl, rfl, rfl, hm₁⟩

/-- **A block of the transfer is answered alike.** -/
theorem Mirrors.block (hi : Inv s) (hv : Inv v) (hm : Mirrors g w k k' s v) (hp : parse msg = .ok (.ok, n))
    (hblock : n.IsBlock) (hid : n.fileid = g) : Alike Eq (AnsweredAlike g w k k') (receive h s msg) (receive h v msg) := by
  obtain ⟨bytes, hb, hn⟩ := parse_file hp hblock
  rw [receive_block hp hblock, receive_block hp hblock]
  subst hid
  unfold handleFile
  rcases hm.files with ⟨hnone, hnone'⟩ | ⟨c, a, b, rcd, hc, hcv, rfl, ha, hsa, hvb⟩
  · rw [hnone, hnone']
    exact .ok ⟨rfl, rfl, rfl, hm⟩
  rw [hc, hcv]
  have hpath : partPath v.recvdir (c.under (some b)).wfname = partPath s.recvdir c.wfname := by rw [hm.recvdir]; rfl
  simp only [hpath]
  cases hq : partPath s.recvdir c.wfname with
  | error e => exact .error rfl
  | ok q =>
    obtain ⟨rfl, -⟩ := partPath_eq_ok hq
    rw [bind_ok, bind_ok]
    refine ((storeBlock_alike h c n hm.part).returned).bind ?_
    rintro ⟨rv, c₁, fs₁⟩ ⟨rv', c₂, fs₂⟩ ⟨hs₁, hv₁, hrv, hc₂, hd⟩
    obtain rfl : rv' = rv := hrv
    obtain rfl : c₂ = c₁.under (some b) := hc₂
    have hoks := hi.ctx _ c hc
    have hokv := hv.ctx _ _ hcv
    obtain ⟨-, hsame, happs⟩ := storeBlock_keeps hoks.toWf hb hn hs₁
    obtain ⟨-, -, happv⟩ := storeBlock_keeps hokv.toWf hb hn hv₁
    let s₁ : State := { s with files := Function.update s.files n.fileid (some c₁), fs := fs₁ }
    let v₁ : State := { v with files := Function.update v.files n.fileid (some (c₁.under (some b))), fs := fs₂ }
    have hms : s₁.files n.fileid = some c₁ := Function.update_self ..
    have hmv : v₁.files n.fileid = some (c₁.under (some b)) := Function.update_self ..
    have hm₁ : Mirrors n.fileid c.wfname k k' s₁ v₁ :=
      { recvdir := hm.recvdir
        part := hd
        final := (happv.frame _ (part_ne_final s c.wfname).symm).trans
          (hm.final.trans (happs.frame _ (part_ne_final s c.wfname).symm).symm)
        calls := hm.calls
        files := .inr ⟨c₁, a, b, rcd, hms, hmv, hsame.wfname, hsame.fcb.trans ha, hsa, hvb⟩ }
    refine Alike.ite (fun _ => .ok ⟨rfl, rfl, rfl, hm₁⟩) fun _ => Alike.ite (fun _ => ?_) fun _ => .ok ⟨rfl, rfl, rfl, hm₁⟩
    have hregs : RegOk s₁ := hi.reg.of_eq rfl rfl rfl
    have hregv : RegOk v₁ := hv.reg.of_eq rfl rfl rfl
    obtain ⟨b', hcb, hfin⟩ := hm₁.finish (h := h) hregs hregv hms (hsame.fileid.trans hoks.fileid)
    rw [hmv] at hcb
    rw [← Option.some.inj hcb] at hfin
    exact hfin

/-! ## What has nothing to do with it -/

/-- The call is another transfer's, or none's: a message of another file id about names apart; a registration of another name
than the default one; an unregistration that spares the record; a stop of another name; any message made; a disk that
keeps the files of the transfer. -/
def Event.Elsewhere (g : UInt32) (w : Bytes) (s : State) : Event → Prop
  | .msg _ m => OtherThan s g w m
  | .register fname _ _ => fname.map cstr ≠ some star
  | .unregister fname => ∀ c a, s.files g = some c → c.fcb = some a → ¬ s.Releases fname a
  | .recvStop _ fname => nftpHash (fileBname fname) ≠ g ∧
      ∀ c, s.files (nftpHash (fileBname fname)) = some c → FilesApart s c.wfname w
  | .maker .. => True
  | .setRecvdir _ => False
  | .setBlocksz _ => True
  | .disk d => d (s.part w) = s.fs.disk (s.part w) ∧ d (s.final w) = s.fs.disk (s.final w)

/-- A registration under another name than the default one keeps the records there are. -/
theorem register_old (hreg : RegOk s) {fname : Option Bytes} {cb : Option Nat} {arg : Nat} {rv : Rv} {a : Addr} {rcd : FileCb}
    (hs : fname.map cstr ≠ some star) (hr : protoRegister s fname cb arg = .ok (rv, s')) (hrcd : s.heap a = some rcd) :
    s'.heap a = some rcd := by
  cases fname with
  | none =>
    cases hr
    exact hrcd
  | some f =>
    have hne : cstr f ≠ star := fun he => hs (congrArg some he)
    obtain ⟨o, hrun, -, hnone⟩ := hreg.findName_tail hne
    simp only [protoRegister, if_neg hne, hrun, bind_ok, ne_eq, not_true_eq_false, if_false] at hr
    cases o with
    | some j =>
      simp only [Option.isSome_some, if_true] at hr
      cases hr
      exact hrcd
    | none =>
      simp only [Option.isSome_none, Bool.false_eq_true, if_false] at hr
      rcases hreg.pushCb_spec (r := ⟨cstr f, cb, arg⟩) (hnone rfl) with ⟨-, hpush⟩ | ⟨-, reg, s₁, hpush, -, hs₁, -, -⟩
      · rw [hpush] at hr
        cases hr
        exact hrcd
      · rw [hpush] at hr
        cases hr
        have hlt : a < s.brk := hreg.lt_brk a ((hreg.mem_iff a).2 (by rw [hrcd]; rfl))
        rw [hs₁, ← hrcd]
        exact Function.update_of_ne (Nat.ne_of_lt hlt) _ _

/-- Of the transfer under `g`, saved under `w`, all is as it was. -/
structure Undisturbed (g : UInt32) (w : Bytes) (s s' : State) : Prop where
  recvdir : s'.recvdir = s.recvdir
  part : s'.fs.disk (s.part w) = s.fs.disk (s.part w)
  final : s'.fs.disk (s.final w) = s.fs.disk (s.final w)
  calls : s'.calls.filter (·.fileid = g) = s.calls.filter (·.fileid = g)
  files : s'.files g = s.files g
  heap : ∀ c a rcd, s.files g = some c → c.fcb = some a → s.heap a = some rcd → s'.heap a = some rcd

theorem Undisturbed.refl : Undisturbed g w s s := ⟨rfl, rfl, rfl, rfl, rfl, fun _ _ _ _ _ hrcd => hrcd⟩

theorem Mirrors.keep (hm : Mirrors g w k k' s v) (hu : Undisturbed g w s s') : Mirrors g w k k' s' v := by
  refine ⟨hm.recvdir.trans hu.recvdir.symm, ?_, ?_, ?_, ?_⟩
  · rw [part_congr hu.recvdir, hu.part]
    exact hm.part
  · rw [final_congr hu.recvdir, hu.final]
    exact hm.final
  · rw [hu.calls]
    exact hm.calls
  · rw [hu.files]
    rcases hm.files with hnone | ⟨c, a, b, rcd, hc, hcv, hw, ha, hsa, hvb⟩
    · exact .inl hnone
    · exact .inr ⟨c, a, b, rcd, hc, hcv, hw, ha, hu.heap c a rcd hc ha hsa, hvb⟩

/-- What changes the registry only, and keeps the record of the transfer. -/
theorem Undisturbed.of_withReg {t : State} (hs : s' = s.withReg t)
    (hheap : ∀ c a rcd, s.files g = some c → c.fcb = some a → s.heap a = some rcd → s'.heap a = some rcd) :
    Undisturbed g w s s' := by
  refine ⟨?_, ?_, ?_, ?_, ?_, hheap⟩ <;> rw [hs] <;> rfl

theorem receive_elsewhere (hi : Inv s) (hr : receive h s msg = .ok r) (he : OtherThan s g w msg) :
    Undisturbed g w s r.st := by
  have haside : ∀ a rcd, Aside s ⟨g, w, a, rcd, []⟩ r.st := fun a rcd => receive_aside ⟨g, w, a, rcd, []⟩ hi he hr
  have ha := haside 0 ⟨[], none, 0⟩
  refine ⟨ha.recvdir, ha.part, ha.final, ha.calls, ha.files, fun c a rcd hc hca hrcd => ?_⟩
  obtain ⟨a', ha', -, hbound⟩ := (hi.ctx g c hc).fcb
  rw [hca] at ha'
  cases ha'
  exact (haside a rcd).heap hrcd (hbound rcd hrcd)

theorem recvStop_elsewhere {fname : Bytes} {rv : Rv} (hi : Inv s) (hr : protoRecvStop h s fname = .ok (rv, s'))
    (hkey : nftpHash (fileBname fname) ≠ g)
    (hap : ∀ c, s.files (nftpHash (fileBname fname)) = some c → FilesApart s c.wfname w) :
    Undisturbed g w s s' := by
  have hne : g ≠ nftpHash (fileBname fname) := Ne.symm hkey
  rcases recvStop_cases hi.reg hr with ⟨-, -, rfl⟩ | ⟨c₀, hc₀, -, ⟨-, -, rfl⟩ | ⟨-, -, -, -, -, hs', hheap⟩⟩
  · exact .refl
  · exact ⟨rfl, rfl, rfl, rfl, Function.update_of_ne hne _ _, fun _ _ _ _ _ hrcd => hrcd⟩
  · obtain ⟨h1, -, h3, -⟩ := (hap c₀ hc₀).paths
    refine ⟨(congrArg State.recvdir hs').trans rfl, ?_, ?_, by rw [congrArg State.calls hs']; rfl,
      (congrFun (congrArg State.files hs') g).trans (Function.update_of_ne hne _ _), fun c a rcd hc ha hrcd => ?_⟩
    · rw [congrArg State.fs hs']
      exact Function.update_of_ne h1 _ _
    · rw [congrArg State.fs hs']
      exact Function.update_of_ne h3 _ _
    · rw [hheap, if_neg]
      · exact hrcd
      · rintro ⟨ha', rcd', hrcd', hns⟩
        exact hne (hi.record_key hc ha hc₀ ha' hrcd' hns)

/-- **What is elsewhere leaves the transfer as it was.** -/
theorem step_elsewhere {e : Event} (hi : Inv s) (hs : Step s e s') (he : e.Elsewhere g w s) : Undisturbed g w s s' := by
  cases e with
  | msg h m =>
    obtain ⟨r, hr, hs⟩ := bind_eq_ok.1 hs
    cases hs
    exact receive_elsewhere hi hr he
  | register fname cb arg =>
    obtain ⟨⟨rv, s₁⟩, hr, hs₁⟩ := bind_eq_ok.1 hs
    cases hs₁
    obtain ⟨-, -, hs', -⟩ := step_register hi.reg hs
    exact .of_withReg hs' fun _ _ _ _ _ hrcd => register_old hi.reg he hr hrcd
  | unregister fname =>
    obtain ⟨-, -, hs', hheap⟩ := step_unregister hi.reg hs
    refine .of_withReg hs' fun c a rcd hc ha hrcd => ?_
    rw [hheap, if_neg (he c a hc ha)]
    exact hrcd
  | recvStop h fname =>
    obtain ⟨rv, hr⟩ := step_recvStop hs
    exact recvStop_elsewhere hi hr he.1 he.2
  | maker h fpath t key i =>
    have hst := step_maker hs
    exact ⟨(congrArg State.recvdir hst).trans rfl, by rw [congrArg State.fs hst], by rw [congrArg State.fs hst],
      by rw [congrArg State.calls hst], (congrFun (congrArg State.files hst) g).trans rfl,
      fun _ a _ _ _ hrcd => (congrFun (congrArg State.heap hst) a).trans hrcd⟩
  | setRecvdir dir => exact absurd he id
  | setBlocksz blksz =>
    cases hs
    exact ⟨rfl, rfl, rfl, rfl, rfl, fun _ _ _ _ _ hrcd => hrcd⟩
  | disk d =>
    cases hs
    exact ⟨rfl, he.1, he.2, rfl, rfl, fun _ _ _ _ _ hrcd => hrcd⟩

/-! ## Runs -/

/-- A block of the transfer under the file id. -/
def Event.Carries (g : UInt32) : Event → Prop
  | .msg _ m => ∃ n, parse m = .ok (.ok, n) ∧ n.IsBlock ∧ n.fileid = g
  | _ => False

instance (g : UInt32) : DecidablePred (Event.Carries g)
  | .msg _ m => inferInstanceAs (Decidable (∃ n, parse m = .ok (.ok, n) ∧ _))
  | .register .. => isFalse id
  | .unregister _ => isFalse id
  | .recvStop .. => isFalse id
  | .maker .. => isFalse id
  | .setRecvdir _ => isFalse id
  | .setBlocksz _ => isFalse id
  | .disk _ => isFalse id

/-- A call is a block of the transfer, or has nothing to do with it. -/
def AmongStep (g : UInt32) (w : Bytes) (s : State) (x : Event × Answer) (s' : State) : Prop :=
  CallStep s x s' ∧ (x.1.Carries g ∨ x.1.Elsewhere g w s)

theorem Event.Elsewhere.not_carries {e : Event} (he : e.Elsewhere g w s) : ¬ e.Carries g := by
  cases e with
  | msg h m =>
    rintro ⟨n, hp, hblock, hid⟩
    exact (he n hp).1 (by rw [hblock.key_eq, hid])
  | _ => exact id

/-- **One call of the first receiver**: a block is answered alike by the second one; of the rest it needs nothing. -/
theorem Mirrors.step {x : Event × Answer} (hi : Inv s) (hv : Inv v) (hm : Mirrors g w k k' s v) (hs : AmongStep g w s x s') :
    ∃ v', Run CallStep v ([x].filter (·.1.Carries g)) v' ∧ Inv v' ∧ Mirrors g w k k' s' v' := by
  obtain ⟨hs, hcarry | helse⟩ := hs
  · obtain ⟨e, rv, rmsg, rlen⟩ := x
    cases e with
    | msg h m =>
      obtain ⟨n, hp, hblock, hid⟩ := hcarry
      obtain ⟨r', hr', hrv, hrmsg, hrlen, hm'⟩ := (hm.block (h := h) hi hv hp hblock hid).of_ok hs
      refine ⟨r'.st, ?_, receive_inv hv hr', hm'⟩
      rw [List.filter_cons_of_pos (by exact decide_eq_true ⟨n, hp, hblock, hid⟩)]
      refine Run.single (hr'.trans ?_)
      obtain ⟨rv', rmsg', rlen', v'⟩ := r'
      cases hrv
      cases hrmsg
      cases hrlen
      rfl
    | _ => cases hcarry
  · refine ⟨v, ?_, hv, hm.keep (step_elsewhere hi (step_iff_call.2 ⟨x.2, hs⟩) helse)⟩
    rw [List.filter_cons_of_neg (by exact fun hc => helse.not_carries (of_decide_eq_true hc))]
    exact .refl

/-- **Among others as alone**: handling only the blocks of the transfer, the second receiver answers them as the first one
did, and they mirror each other at the end. -/
theorem Mirrors.run {es : List (Event × Answer)} (hi : Inv s) (hv : Inv v) (hm : Mirrors g w k k' s v)
    (hrun : Run (AmongStep g w) s es s') :
    ∃ v', Run CallStep v (es.filter (·.1.Carries g)) v' ∧ Inv s' ∧ Inv v' ∧ Mirrors g w k k' s' v' := by
  refine Run.history (I := fun es s' => ∃ v', Run CallStep v (es.filter (·.1.Carries g)) v' ∧ Inv s' ∧ Inv v' ∧
    Mirrors g w k k' s' v') ⟨v, .refl, hi, hv, hm⟩ ?_ hrun
  rintro es s₁ x s₂ ⟨v₁, hrun₁, hi₁, hv₁, hm₁⟩ hs
  obtain ⟨v₂, hrun₂, hv₂, hm₂⟩ := hm₁.step hi₁ hv₁ hs
  refine ⟨v₂, ?_, step_inv hi₁ (step_iff_call.2 ⟨x.2, hs.1⟩), hv₂, hm₂⟩
  rw [List.filter_append]
  exact hrun₁.append hrun₂

/-! ## From a HELLO on -/

end Nftp
