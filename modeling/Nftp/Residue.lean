import Nftp.Records
/-!
# Residue — what a transfer leaves in the callback registry

A HELLO of a file nobody registered binds the default record and pushes another one under the file's name; the end of the
transfer looks for the record that is bound.  `Beside` is what a call does, besides the transfer of a name, to the records
of that name; from it follows who is left at the end, whether the name can then be registered (`Untraced`), and whose
callback was run (`RanDefault`).
-/
namespace Nftp

open Lib

variable {h : Host} {s s' : State} {n : Packet} {msg f : Bytes} {r : Ret} {c : Nctx}

/-- The call neither starts nor stops a transfer under the name's file id, nor registers or unregisters the name. -/
def Event.NotOf (f : Bytes) : Event → Prop
  | .msg _ m => ∀ n, parse m = .ok (.ok, n) → MsgType.ofCode n.type = some .hello → nftpHash n.name ≠ nftpHash f
  | .register fname _ _ => fname.map cstr ≠ some f
  | .unregister fname => fname.map cstr ≠ some f
  | .recvStop _ fname => nftpHash (fileBname fname) ≠ nftpHash f
  | _ => True

/-- A record of the name is in the registry. -/
def State.Has (s : State) (f : Bytes) : Prop := ∃ a rcd, s.heap a = some rcd ∧ rcd.fname = f

theorem RegOk.has_iff (hreg : RegOk s) : s.Has f ↔ ∃ i, s.Named i f := by
  constructor
  · rintro ⟨a, rcd, hrcd, hn⟩
    obtain ⟨i, hi⟩ := hreg.index hrcd
    exact ⟨i, a, rcd, hi, hrcd, hn⟩
  · rintro ⟨i, a, rcd, -, hrcd, hn⟩
    exact ⟨a, rcd, hrcd, hn⟩

/-- What a call does to the transfer under the name's file id and to the records of the name: a context that stays is
bound as before, and one that goes takes its record with it, unless that is the default one; no other record of the name
goes, and none comes. -/
structure Beside (s : State) (f : Bytes) (s' : State) : Prop where
  stays : ∀ c', s'.files (nftpHash f) = some c' → ∃ c, s.files (nftpHash f) = some c ∧ c'.fcb = c.fcb
  goes : ∀ c a rcd, s.files (nftpHash f) = some c → s'.files (nftpHash f) = none → c.fcb = some a → s.heap a = some rcd →
    rcd.fname ≠ star → s'.heap a = none
  old : ∀ a rcd, s.heap a = some rcd → rcd.fname = f → (∃ rcd', s'.heap a = some rcd' ∧ rcd'.fname = f) ∨
    f ≠ star ∧ s'.files (nftpHash f) = none ∧ ∃ c, s.files (nftpHash f) = some c ∧ c.fcb = some a
  new : ∀ a rcd', s'.heap a = some rcd' → rcd'.fname = f → ∃ rcd, s.heap a = some rcd ∧ rcd.fname = f

theorem Beside.of_files (hfiles : s'.files (nftpHash f) = s.files (nftpHash f))
    (hold : ∀ a rcd, s.heap a = some rcd → rcd.fname = f → ∃ rcd', s'.heap a = some rcd' ∧ rcd'.fname = f)
    (hnew : ∀ a rcd', s'.heap a = some rcd' → rcd'.fname = f → ∃ rcd, s.heap a = some rcd ∧ rcd.fname = f) : Beside s f s' where
  stays c' hc' := ⟨c', by rw [← hfiles]; exact hc', rfl⟩
  goes c a rcd hc hnone := by
    rw [hfiles, hc] at hnone
    cases hnone
  old a rcd hrcd hn := .inl (hold a rcd hrcd hn)
  new := hnew

theorem Beside.of_eq (hfiles : s'.files (nftpHash f) = s.files (nftpHash f)) (hheap : s'.heap = s.heap) : Beside s f s' :=
  .of_files hfiles (fun _ rcd hrcd hn => ⟨rcd, by rw [hheap]; exact hrcd, hn⟩)
    fun _ rcd hrcd hn => ⟨rcd, by rw [← hheap]; exact hrcd, hn⟩

/-- A record that goes with the transfer of another file id has another name. -/
theorem Inv.other_record (hi : Inv s) {key : UInt32} {a : Addr} {rcd : FileCb} (hc : s.files key = some c)
    (ha : c.fcb = some a) (hrcd : s.heap a = some rcd) (hns : rcd.fname ≠ star) : nftpHash rcd.fname = key := by
  obtain ⟨b, hb, -, hname⟩ := (hi.ctx key c hc).fcb
  rw [ha] at hb
  cases hb
  exact (hname rcd hrcd).resolve_left hns

/-- A call that releases the record of the context it takes off the table, unless that is the default one. -/
theorem beside_of_release (hi : Inv s) {key : UInt32} {a : Addr} {rcd : FileCb} (hc : s.files key = some c)
    (ha : c.fcb = some a) (hrcd : s.heap a = some rcd) (hgone : s'.files key = none)
    (hfiles : ∀ g, g ≠ key → s'.files g = s.files g)
    (hheap : ∀ b, s'.heap b = if b = a ∧ rcd.fname ≠ star then none else s.heap b) : Beside s f s' := by
  refine ⟨fun c' hc' => ?_, fun c₀ b rb hc₀ hnone hb hrb hns => ?_, fun b rb hrb hn => ?_, fun b rb hrb hn => ?_⟩
  · have hk : nftpHash f ≠ key := by
      rintro rfl
      rw [hgone] at hc'
      cases hc'
    rw [hfiles _ hk] at hc'
    exact ⟨c', hc', rfl⟩
  · by_cases hk : nftpHash f = key
    · rw [hk, hc] at hc₀
      cases hc₀
      rw [ha] at hb
      cases hb
      rw [hrcd] at hrb
      cases hrb
      rw [hheap, if_pos ⟨rfl, hns⟩]
    · rw [hfiles _ hk, hc₀] at hnone
      cases hnone
  · rw [hheap]
    by_cases hba : b = a ∧ rcd.fname ≠ star
    · -- the record is of the name's file id, so the transfer is the name's
      obtain ⟨rfl, hns⟩ := hba
      have hkey := hi.other_record hc ha hrcd hns
      rw [hrcd] at hrb
      cases hrb
      rw [hn] at hkey hns
      rw [← hkey] at hc
      exact .inr ⟨hns, by rw [← hkey] at hgone; exact hgone, c, hc, ha⟩
    · rw [if_neg hba]
      exact .inl ⟨rb, hrb, hn⟩
  · rw [hheap] at hrb
    split at hrb
    · cases hrb
    · exact ⟨rb, hrb, hn⟩

/-- A successful stop, of this transfer or of another one. -/
theorem recvStop_beside (hi : Inv s) {fname : Bytes} (hr : protoRecvStop h s fname = .ok (.ok, s')) : Beside s f s' := by
  rcases recvStop_cases hi.reg hr with ⟨-, hrv, -⟩ | ⟨c, hc, -, ⟨hrv, -⟩ | ⟨-, -, -, -, -, hs', hheap⟩⟩
  · cases hrv
  · exact absurd rfl hrv
  have hfiles : s'.files = htErase s.files (nftpHash (fileBname fname)) := (congrArg State.files hs').trans rfl
  refine ⟨fun c' hc' => ?_, fun c₀ b rb hc₀ hnone hb hrb hns => ?_, fun b rb hrb hn => ?_, fun b rb hrb hn => ?_⟩
  · rw [hfiles] at hc'
    exact ⟨c', erase_files hc', rfl⟩
  · by_cases hk : nftpHash f = nftpHash (fileBname fname)
    · rw [hk, hc] at hc₀
      cases hc₀
      rw [hheap, if_pos ⟨hb, rb, hrb, hns⟩]
    · rw [hfiles, htErase, Function.update_of_ne hk, hc₀] at hnone
      cases hnone
  · rw [hheap]
    by_cases hrel : c.fcb = some b ∧ ∃ r, s.heap b = some r ∧ r.fname ≠ star
    · obtain ⟨hb, rcd, hrcd, hns⟩ := hrel
      have hkey := hi.other_record hc hb hrcd hns
      rw [hrcd] at hrb
      cases hrb
      rw [hn] at hkey hns
      rw [← hkey] at hc
      refine .inr ⟨hns, ?_, c, hc, hb⟩
      rw [hfiles, hkey]
      exact Function.update_self ..
    · rw [if_neg hrel]
      exact .inl ⟨rb, hrb, hn⟩
  · rw [hheap] at hrb
    split at hrb
    · cases hrb
    · exact ⟨rb, hrb, hn⟩

theorem handleHello_beside (hi : Inv s) (hr : handleHello h s n = .ok r) (hk : nftpHash n.name ≠ nftpHash f) :
    Beside s f r.st := by
  obtain ⟨hold, hnew, hfiles⟩ := handleHello_heap hi hr
  refine .of_files ?_ (fun a rcd hrcd hn => ⟨rcd, hold a rcd hrcd, hn⟩) fun a rcd hrcd hn => ?_
  · rcases hfiles with hfiles | ⟨a, w, -, hfiles⟩
    · rw [hfiles]
    · rw [hfiles, Function.update_of_ne (Ne.symm hk)]
  · exact ⟨rcd, (hnew a rcd hrcd).resolve_right fun hn' => hk (by rw [← hn', hn]), hn⟩

theorem handleFile_beside (hi : Inv s) {b : Bytes} (hb : n.content = some b) (hn : b.length = n.ctlen)
    (hr : handleFile h s n = .ok r) : Beside s f r.st := by
  rcases handleFile_heap hi hb hn hr with ⟨hheap, ⟨-, hst⟩ | ⟨c₀, c₁, hc₀, hsame, hfiles⟩⟩ |
    ⟨c₀, a, rcd, hc₀, ha, hrcd, hgone, -, hheap⟩
  · rw [hst]
    exact .of_eq rfl rfl
  · by_cases hk : nftpHash f = n.fileid
    · -- a block of the transfer itself, which goes on
      rw [← hk] at hfiles hc₀
      refine ⟨fun c' hc' => ?_, fun c a rcd hc hnone => ?_, fun a rcd hrcd hn => .inl ⟨rcd, by rw [hheap]; exact hrcd, hn⟩,
        fun a rcd hrcd hn => ⟨rcd, by rw [← hheap]; exact hrcd, hn⟩⟩
      · rw [hfiles, Function.update_self] at hc'
        cases hc'
        exact ⟨c₀, hc₀, hsame.fcb⟩
      · rw [hfiles, Function.update_self] at hnone
        cases hnone
    · exact .of_eq (by rw [hfiles, Function.update_of_ne hk]) hheap
  · exact beside_of_release hi hc₀ ha hrcd hgone (handleFile_effect hi hb hn hr).files hheap

/-- **What one call does beside a transfer.** -/
theorem step_beside {e : Event} (hi : Inv s) (hs : Step s e s') (he : e.NotOf f) : Beside s f s' := by
  cases e with
  | msg h m =>
    obtain ⟨r, hr, hs⟩ := bind_eq_ok.1 hs
    cases hs
    rcases receive_kinds hr with ⟨hst, -⟩ | ⟨n, hp, ht, hr'⟩ | ⟨n, b, -, -, hb, hn, hr'⟩
    · rw [hst]
      exact .of_eq rfl rfl
    · exact handleHello_beside hi hr' (he n hp ht)
    · exact handleFile_beside hi hb hn hr'
  | register fname cb arg =>
    obtain ⟨-, -, hs', hrecs⟩ := step_register hi.reg hs
    refine .of_files (congrFun ((congrArg State.files hs').trans rfl) _) (fun a rcd hrcd hn => ?_) fun a rcd hrcd hn => ?_
    · obtain ⟨rcd', hrcd', hn'⟩ := hrecs.old a rcd hrcd
      exact ⟨rcd', hrcd', hn'.trans hn⟩
    · obtain ⟨rcd₀, hrcd₀, hn₀⟩ := (hrecs.new a rcd hrcd).resolve_right fun hf => he (by rw [hf, hn])
      exact ⟨rcd₀, hrcd₀, hn₀.trans hn⟩
  | unregister fname =>
    obtain ⟨-, -, hs', hheap⟩ := step_unregister hi.reg hs
    refine .of_files (congrFun ((congrArg State.files hs').trans rfl) _) (fun a rcd hrcd hn => ⟨rcd, ?_, hn⟩)
      fun a rcd hrcd hn => ?_
    · rw [hheap, if_neg]
      · exact hrcd
      · rintro ⟨rcd₀, hrcd₀, -, hf⟩
        rw [hrcd] at hrcd₀
        cases hrcd₀
        exact he (by rw [hf, hn])
    · rw [hheap] at hrcd
      split at hrcd
      · cases hrcd
      · exact ⟨rcd, hrcd, hn⟩
  | recvStop h fname =>
    obtain ⟨rv, hr⟩ := step_recvStop hs
    rcases recvStop_cases hi.reg hr with ⟨-, -, rfl⟩ | ⟨c₀, hc₀, -, ⟨-, -, rfl⟩ | ⟨rfl, -⟩⟩
    · exact .of_eq rfl rfl
    · exact .of_eq (Function.update_of_ne (Ne.symm he) _ _) rfl
    · exact recvStop_beside hi hr
  | maker h fpath t key n =>
    have hst := step_maker hs
    exact .of_eq (congrFun ((congrArg State.files hst).trans rfl) _) ((congrArg State.heap hst).trans rfl)
  | setRecvdir dir => cases hs; exact .of_eq rfl rfl
  | setBlocksz blksz => cases hs; exact .of_eq rfl rfl
  | disk disk => cases hs; exact .of_eq rfl rfl

/-! ## The ways a transfer is bound -/

/-- The transfer is bound to the record of its name, or is over and the record gone. -/
def BoundByName (f : Bytes) (s : State) : Prop :=
  (∃ c a rcd, s.files (nftpHash f) = some c ∧ c.fcb = some a ∧ s.heap a = some rcd ∧ rcd.fname = f) ∨
    s.files (nftpHash f) = none ∧ ¬ s.Has f

/-- There is a record of the name that the transfer is not bound to, or that is the default one. -/
def LeftBehind (f : Bytes) (s : State) : Prop :=
  ∃ a rcd, s.heap a = some rcd ∧ rcd.fname = f ∧ (f = star ∨ ∀ c, s.files (nftpHash f) = some c → c.fcb ≠ some a)

/-- The transfer of the name, while it runs, is bound to the default record. -/
def BoundDefault (f : Bytes) (s : State) : Prop :=
  ∀ c, s.files (nftpHash f) = some c → ∃ a rcd, c.fcb = some a ∧ s.heap a = some rcd ∧ rcd.fname = star

/-- No call releases the default record. -/
theorem step_default {e : Event} (hi : Inv s) (hs : Step s e s') {a : Addr} {rcd : FileCb} (hrcd : s.heap a = some rcd)
    (hn : rcd.fname = star) : ∃ rcd', s'.heap a = some rcd' ∧ rcd'.fname = star := by
  have hsame : s'.heap = s.heap → ∃ rcd', s'.heap a = some rcd' ∧ rcd'.fname = star :=
    fun hheap => ⟨rcd, by rw [hheap]; exact hrcd, hn⟩
  cases e with
  | msg h m =>
    obtain ⟨r, hr, hs⟩ := bind_eq_ok.1 hs
    cases hs
    rcases receive_effect hi hr with hst | ⟨n, key, -, -, he⟩
    · exact hsame (by rw [hst])
    · exact ⟨rcd, (he.heap a rcd hrcd).resolve_right fun h' => h'.1 hn, hn⟩
  | register fname cb arg =>
    obtain ⟨-, -, -, hrecs⟩ := step_register hi.reg hs
    obtain ⟨rcd', hrcd', hn'⟩ := hrecs.old a rcd hrcd
    exact ⟨rcd', hrcd', hn'.trans hn⟩
  | unregister fname =>
    obtain ⟨-, -, -, hheap⟩ := step_unregister hi.reg hs
    refine ⟨rcd, ?_, hn⟩
    rw [hheap, if_neg]
    · exact hrcd
    · rintro ⟨rcd₀, hrcd₀, hns, -⟩
      rw [hrcd] at hrcd₀
      cases hrcd₀
      exact hns hn
  | recvStop h fname =>
    obtain ⟨rv, hr⟩ := step_recvStop hs
    rcases recvStop_cases hi.reg hr with ⟨-, -, rfl⟩ | ⟨c₀, -, -, ⟨-, -, rfl⟩ | ⟨-, -, -, -, -, -, hheap⟩⟩
    · exact hsame rfl
    · exact hsame rfl
    · refine ⟨rcd, ?_, hn⟩
      rw [hheap, if_neg]
      · exact hrcd
      · rintro ⟨-, rcd₀, hrcd₀, hns⟩
        rw [hrcd] at hrcd₀
        cases hrcd₀
        exact hns hn
  | maker h fpath t key n => exact hsame ((congrArg State.heap (step_maker hs)).trans rfl)
  | setRecvdir dir => cases hs; exact hsame rfl
  | setBlocksz blksz => cases hs; exact hsame rfl
  | disk disk => cases hs; exact hsame rfl

theorem BoundDefault.beside {e : Event} (hb : BoundDefault f s) (hi : Inv s) (hs : Step s e s') (hbeside : Beside s f s') :
    BoundDefault f s' := by
  intro c' hc'
  obtain ⟨c, hc, hfcb⟩ := hbeside.stays c' hc'
  obtain ⟨a, rcd, ha, hrcd, hn⟩ := hb c hc
  obtain ⟨rcd', hrcd', hn'⟩ := step_default hi hs hrcd hn
  exact ⟨a, rcd', hfcb.trans ha, hrcd', hn'⟩

theorem BoundByName.beside (hb : BoundByName f s) (hreg : RegOk s) (hf : f ≠ star) (hs : Beside s f s') :
    BoundByName f s' := by
  rcases hb with ⟨c, a, rcd, hc, ha, hrcd, hn⟩ | ⟨hnone, hno⟩
  · cases hc' : s'.files (nftpHash f) with
    | some c' =>
      obtain ⟨c₀, hc₀, hfcb⟩ := hs.stays c' hc'
      rw [hc] at hc₀
      cases hc₀
      rcases hs.old a rcd hrcd hn with ⟨rcd', hrcd', hn'⟩ | ⟨-, hnone, -⟩
      · exact .inl ⟨c', a, rcd', hc', hfcb.trans ha, hrcd', hn'⟩
      · rw [hnone] at hc'
        cases hc'
    | none =>
      refine .inr ⟨hc', ?_⟩
      rintro ⟨b, rb, hrb, hnb⟩
      obtain ⟨rb₀, hrb₀, hnb₀⟩ := hs.new b rb hrb hnb
      have hba := hreg.names b a rb₀ rcd hrb₀ hrcd (hnb₀.trans hn.symm)
      rw [hba, hs.goes c a rcd hc hc' ha hrcd (by rw [hn]; exact hf)] at hrb
      cases hrb
  · refine .inr ⟨?_, fun ⟨a, rcd, hrcd, hn⟩ => hno ?_⟩
    · cases hc' : s'.files (nftpHash f) with
      | none => rfl
      | some c' =>
        obtain ⟨c, hc, -⟩ := hs.stays c' hc'
        rw [hnone] at hc
        cases hc
    · obtain ⟨rcd₀, hrcd₀, hn₀⟩ := hs.new a rcd hrcd hn
      exact ⟨a, rcd₀, hrcd₀, hn₀⟩

theorem LeftBehind.beside (hl : LeftBehind f s) (hs : Beside s f s') : LeftBehind f s' := by
  obtain ⟨a, rcd, hrcd, hn, hfree⟩ := hl
  rcases hs.old a rcd hrcd hn with ⟨rcd', hrcd', hn'⟩ | ⟨hf, -, c, hc, ha⟩
  · refine ⟨a, rcd', hrcd', hn', hfree.imp_right fun hfree c' hc' => ?_⟩
    obtain ⟨c, hc, hfcb⟩ := hs.stays c' hc'
    rw [hfcb]
    exact hfree c hc
  · rcases hfree with h' | h'
    · exact absurd h' hf
    · exact absurd ha (h' c hc)

theorem not_has_beside (hno : ¬ s.Has f) (hs : Beside s f s') : ¬ s'.Has f := by
  rintro ⟨a, rcd, hrcd, hn⟩
  obtain ⟨rcd₀, hrcd₀, hn₀⟩ := hs.new a rcd hrcd hn
  exact hno ⟨a, rcd₀, hrcd₀, hn₀⟩

/-- What a HELLO, accepted, leaves: the record of the name bound; or the default one, and a record of the name pushed if
there was room. -/
theorem hello_bound (hi : Inv s) (hp : parse msg = .ok (.ok, n)) (ht : MsgType.ofCode n.type = some .hello)
    (hr : receive h s msg = .ok r) (hrv : r.rv = .ok) :
    (n.name ≠ star → s.Has n.name → BoundByName n.name r.st) ∧
    (n.name = star ∨ ¬ s.Has n.name → BoundDefault n.name r.st) ∧
    (¬ s.Has n.name → s.fcbReg.len = nftpFiles → ¬ r.st.Has n.name) ∧
    (n.name = star ∨ ¬ KeepsRegistry s n.name → LeftBehind n.name r.st) := by
  have hinv := receive_inv hi hr
  rw [receive_of_parse h s hp, dispatch, ht] at hr
  rcases handleHello_cases hi.reg hr with ⟨-, rfl⟩ | ⟨-, a, s₁, w, path, hbind, hb, -, -, hcase⟩
  · cases hrv
  rcases hcase with ⟨-, rfl⟩ | ⟨-, rv, rmsg, rlen, ⟨-, rfl, -, -⟩ | ⟨-, rfl, -, -⟩, rfl⟩
  · cases hrv
  · cases hrv
  obtain ⟨a', rcd, s₂, hbind', hrcd, hmem, hcase⟩ := bindFcb_spec hi.reg (cstr_cstr (n.fname.getD []))
  have hbind'' : bindFcb s n.name = .ok (some a', s₂) := hbind'
  rw [hbind] at hbind''
  cases hbind''
  have hfile : Function.update s.files (nftpHash n.name) (some (helloCtx n a w)) (nftpHash n.name) = some (helloCtx n a w) :=
    Function.update_self ..
  have hstar : n.name = star → LeftBehind n.name
      { s₁ with files := Function.update s.files (nftpHash n.name) (some (helloCtx n a w)), fs := s.fs.created path } := by
    intro hs
    obtain ⟨b, rb, -, hrb, hnb⟩ := hinv.reg.head
    exact ⟨b, rb, hrb, by rw [hnb, hs], .inl hs⟩
  rcases hcase with ⟨hn, rfl⟩ | ⟨hn, hnew, hpush⟩
  · have hhas : s₁.Has n.name := ⟨a, rcd, hrcd, hn⟩
    refine ⟨fun _ _ => .inl ⟨_, a, rcd, hfile, rfl, hrcd, hn⟩, fun hcase c hc => ?_, fun hno => absurd hhas hno, ?_⟩
    · cases hfile.symm.trans hc
      exact ⟨a, rcd, rfl, hrcd, hn.trans (hcase.resolve_right (not_not.2 hhas))⟩
    rintro (hs | hk)
    · exact hstar hs
    · exact absurd (.inl (hi.reg.has_iff.1 hhas)) hk
  · have hno : ¬ s.Has n.name := by
      rw [hi.reg.has_iff]
      rintro ⟨i, hi'⟩
      exact hnew i hi'
    refine ⟨fun _ hhas => absurd hhas hno, fun _ c hc => ?_, fun _ hl => ?_, ?_⟩
    · cases hfile.symm.trans hc
      exact ⟨a, rcd, rfl, hb.heap a rcd hrcd, hn⟩
    · rcases hpush with ⟨-, rfl⟩ | ⟨hl', -⟩
      · exact hno
      · omega
    · rintro (hs | hk)
      · exact hstar hs
      · rcases hpush with ⟨hl, -⟩ | ⟨-, reg, -, rfl⟩
        · exact absurd (.inr hl) hk
        · refine ⟨s.brk, ⟨n.name, rcd.cb, rcd.arg⟩, Function.update_self .., rfl, .inr fun c hc => ?_⟩
          cases hfile.symm.trans hc
          intro heq
          have hlt := hi.reg.lt_brk a hmem
          rw [Option.some.inj heq] at hlt
          exact Nat.lt_irrefl _ hlt

/-! ## Runs -/

/-- What is known of the records of the name since the HELLO that found the state `s₀`. -/
structure Tracked (s₀ : State) (f : Bytes) (s : State) : Prop where
  inv : Inv s
  byName : f ≠ star → s₀.Has f → BoundByName f s
  default : f = star ∨ ¬ s₀.Has f → BoundDefault f s
  full : ¬ s₀.Has f → s₀.fcbReg.len = nftpFiles → ¬ s.Has f
  left : f = star ∨ ¬ KeepsRegistry s₀ f → LeftBehind f s

theorem Tracked.beside {s₀ : State} {e : Event} (ht : Tracked s₀ f s) (hs : Step s e s') (hbeside : Beside s f s') :
    Tracked s₀ f s' where
  inv := step_inv ht.inv hs
  byName hf hhas := (ht.byName hf hhas).beside ht.inv.reg hf hbeside
  default hcase := (ht.default hcase).beside ht.inv hs hbeside
  full hno hl := not_has_beside (ht.full hno hl) hbeside
  left hcase := (ht.left hcase).beside hbeside

/-- **Once the transfer is off the table**, the registry has no entry of its name exactly when the HELLO pushed none. -/
theorem Tracked.over {s₀ : State} (ht : Tracked s₀ f s) (hi₀ : Inv s₀) (hnone : s.files (nftpHash f) = none) :
    (¬ ∃ i, s.Named i f) ↔ f ≠ star ∧ KeepsRegistry s₀ f := by
  rw [← ht.inv.reg.has_iff]
  constructor
  · intro hno
    by_contra hcon
    obtain ⟨a, rcd, hrcd, hn, -⟩ := ht.left (by tauto)
    exact hno ⟨a, rcd, hrcd, hn⟩
  · rintro ⟨hf, hkeep⟩
    by_cases hhas : s₀.Has f
    · rcases ht.byName hf hhas with ⟨c, -, -, hc, -⟩ | ⟨-, hno⟩
      · rw [hnone] at hc
        cases hc
      · exact hno
    · exact ht.full hhas (hkeep.resolve_left fun hnamed => hhas (hi₀.reg.has_iff.2 hnamed))

/-! ## The end of the transfer -/

/-- The step takes the transfer of the name off the table, and with it the record it is bound to, unless that is the
default one. -/
structure EndsTransfer (s : State) (f : Bytes) (rcd : FileCb) (s' : State) : Prop where
  record : ∃ c a, s.files (nftpHash f) = some c ∧ c.fcb = some a ∧ s.heap a = some rcd ∧
    ∀ b, s'.heap b = if b = a ∧ rcd.fname ≠ star then none else s.heap b
  gone : s'.files (nftpHash f) = none

/-- A HELLO takes no context off the table. -/
theorem handleHello_files (hi : Inv s) (hr : handleHello h s n = .ok r) {g : UInt32} (hc : s.files g = some c) :
    r.st.files g ≠ none := by
  obtain ⟨-, -, hfiles | ⟨a, w, -, hfiles⟩⟩ := handleHello_heap hi hr
  · rw [hfiles, hc]
    exact nofun
  · rw [hfiles]
    by_cases hg : g = nftpHash n.name
    · rw [hg, Function.update_self]
      exact nofun
    · rw [Function.update_of_ne hg, hc]
      exact nofun

theorem notOf_ending (hi : Inv s) (hr : receive h s msg = .ok r) (hc : s.files (nftpHash f) = some c)
    (hgone : r.st.files (nftpHash f) = none) : (Event.msg h msg).NotOf f := by
  intro n hp ht _
  rw [receive_of_parse h s hp, dispatch, ht] at hr
  exact handleHello_files hi hr hc hgone

/-- **A message that ends a transfer** runs the callback of the record it is bound to. -/
theorem receive_ends (hi : Inv s) (hr : receive h s msg = .ok r) (hc : s.files (nftpHash f) = some c)
    (hgone : r.st.files (nftpHash f) = none) :
    ∃ rcd, EndsTransfer s f rcd r.st ∧ r.st.calls = s.calls ++ callOf (nftpHash f) rcd := by
  rcases receive_kinds hr with ⟨hst, -⟩ | ⟨n, -, -, hr'⟩ | ⟨n, b, -, -, hb, hn, hr'⟩
  · rw [hst, hc] at hgone
    cases hgone
  · exact absurd hgone (handleHello_files hi hr' hc)
  · have hk : nftpHash f = n.fileid := by
      by_contra hk
      rw [(handleFile_effect hi hb hn hr').files _ hk, hc] at hgone
      cases hgone
    rcases handleFile_heap hi hb hn hr' with ⟨-, ⟨-, hst⟩ | ⟨c₀, c₁, -, -, hfiles⟩⟩ |
      ⟨c₀, a, rcd, hc₀, ha, hrcd, -, hcalls, hheap⟩
    · rw [hst, hc] at hgone
      cases hgone
    · rw [hfiles, hk, Function.update_self] at hgone
      cases hgone
    · rw [← hk] at hc₀ hcalls
      exact ⟨rcd, ⟨⟨c₀, a, hc₀, ha, hrcd, hheap⟩, hgone⟩, hcalls⟩

theorem recvStop_ends (hi : Inv s) {fname : Bytes} (hk : nftpHash (fileBname fname) = nftpHash f)
    (hr : protoRecvStop h s fname = .ok (.ok, s'))
    (hheld : ∀ c, s.files (nftpHash f) = some c → ∃ a rcd, c.fcb = some a ∧ s.heap a = some rcd) :
    ∃ rcd, EndsTransfer s f rcd s' := by
  rcases recvStop_cases hi.reg hr with ⟨-, hrv, -⟩ | ⟨c, hc, -, ⟨hrv, -⟩ | ⟨-, -, -, -, -, hs', hheap⟩⟩
  · cases hrv
  · exact absurd rfl hrv
  rw [hk] at hc
  obtain ⟨a, rcd, ha, hrcd⟩ := hheld c hc
  refine ⟨rcd, ⟨c, a, hc, ha, hrcd, fun b => ?_⟩, ?_⟩
  · rw [hheap]
    refine if_congr ?_ rfl rfl
    rw [ha, Option.some.injEq]
    constructor
    · rintro ⟨rfl, rb, hrb, hns⟩
      rw [hrcd] at hrb
      cases hrb
      exact ⟨rfl, hns⟩
    · rintro ⟨rfl, hns⟩
      exact ⟨rfl, rcd, hrcd, hns⟩
  · rw [congrArg State.files hs', ← hk]
    exact Function.update_self ..

/-- The record a transfer is bound to is there: that of its name when the HELLO found one, and else the default one. -/
theorem Tracked.record {s₀ : State} (ht : Tracked s₀ f s) (hc : s.files (nftpHash f) = some c) :
    ∃ a rcd, c.fcb = some a ∧ s.heap a = some rcd ∧ (f ≠ star → s₀.Has f → rcd.fname = f) ∧
      (¬ s₀.Has f → rcd.fname = star) := by
  by_cases hcase : f = star ∨ ¬ s₀.Has f
  · obtain ⟨a, rcd, ha, hrcd, hn⟩ := ht.default hcase c hc
    exact ⟨a, rcd, ha, hrcd, fun hf hhas => absurd hcase (not_or.2 ⟨hf, not_not.2 hhas⟩), fun _ => hn⟩
  · obtain ⟨hf, hhas⟩ := not_or.1 hcase
    rcases ht.byName hf (not_not.1 hhas) with ⟨c', a, rcd, hc', ha, hrcd, hn⟩ | ⟨hnone, -⟩
    · rw [hc] at hc'
      cases hc'
      exact ⟨a, rcd, ha, hrcd, fun _ _ => hn, fun hno => absurd hno hhas⟩
    · rw [hnone] at hc
      cases hc

theorem Tracked.ended {s₀ : State} (ht : Tracked s₀ f s) {rcd : FileCb} (he : EndsTransfer s f rcd s') :
    (f ≠ star → s₀.Has f → rcd.fname = f) ∧ (¬ s₀.Has f → rcd.fname = star) := by
  obtain ⟨c, a, hc, ha, hrcd, -⟩ := he.record
  obtain ⟨b, rb, hb, hrb, hn⟩ := ht.record hc
  rw [ha] at hb
  cases hb
  rw [hrcd] at hrb
  cases hrb
  exact hn

/-- No trace of a transfer is left in the registry: no entry of its name, and the name can be registered. -/
structure Untraced (f : Bytes) (s : State) : Prop where
  gone : ¬ ∃ i, s.Named i f
  registers : ∀ cb arg, ∃ s', protoRegister s (some f) cb arg = .ok (.ok, s')

/-- The callback run for the transfer is the one the default record holds now. -/
def RanDefault (f : Bytes) (s s' : State) : Prop :=
  ∃ a dflt, s.heap a = some dflt ∧ dflt.fname = star ∧ s'.calls = s.calls ++ callOf (nftpHash f) dflt

/-- The HELLO, in `s₀`, found an entry of the name, which goes with the transfer; or a registry that was full, and is not
full any more. -/
def PushesNone (s₀ : State) (f : Bytes) (s : State) : Prop :=
  f ≠ star ∧ ((∃ i, s₀.Named i f) ∨ s₀.fcbReg.len = nftpFiles ∧ s.fcbReg.len < nftpFiles)

/-- An entry of the name runs the callback the default record runs. -/
def RunsDefault (f : Bytes) (s : State) : Prop :=
  ∀ a ∈ s.regs, ∀ b ∈ s.regs, ∀ rcd ∈ s.heap a, ∀ dflt ∈ s.heap b, rcd.fname = f → dflt.fname = star →
    callOf (nftpHash f) rcd = callOf (nftpHash f) dflt

/-- **The end of a transfer leaves no trace** exactly when its HELLO pushed no entry and there is room. -/
theorem Tracked.untraced {s₀ : State} (ht : Tracked s₀ f s) (ht' : Tracked s₀ f s') (hi₀ : Inv s₀) (hf : cstr f = f)
    {rcd : FileCb} (he : EndsTransfer s f rcd s') : Untraced f s' ↔ PushesNone s₀ f s := by
  have hover := ht'.over hi₀ he.gone
  obtain ⟨hnamed, hdefault⟩ := ht.ended he
  obtain ⟨c, a, -, -, hrcd, hheap⟩ := he.record
  obtain ⟨hsame, hless⟩ := ht.inv.reg.len_release ht'.inv.reg hrcd hheap
  rw [hi₀.reg.has_iff] at hnamed hdefault
  constructor
  · rintro ⟨hgone, hregs⟩
    obtain ⟨hs, hkeep⟩ := hover.1 hgone
    obtain ⟨-, hroom⟩ := (ht'.inv.reg.register_iff hs hf).1 hregs
    refine ⟨hs, ?_⟩
    by_cases hhas : ∃ i, s₀.Named i f
    · exact .inl hhas
    · rw [hsame (hdefault hhas)] at hroom
      exact .inr ⟨hkeep.resolve_left hhas, hroom⟩
  · rintro ⟨hs, hcase⟩
    have hgone := hover.2 ⟨hs, hcase.imp_right And.left⟩
    refine ⟨hgone, (ht'.inv.reg.register_iff hs hf).2 ⟨hgone, ?_⟩⟩
    have hle := ht.inv.reg.wf.len_le
    rw [ht.inv.reg.cap] at hle
    by_cases hstar : rcd.fname = star
    · rcases hcase with hhas | ⟨-, hroom⟩
      · exact absurd (hstar.symm.trans (hnamed hs hhas)).symm hs
      · rw [hsame hstar]
        exact hroom
    · have := hless hstar
      omega

/-- **The default callback was run** exactly when an entry of the name runs it too. -/
theorem Tracked.ranDefault {s₀ : State} (ht : Tracked s₀ f s) (hi₀ : Inv s₀) (hp : PushesNone s₀ f s) {rcd : FileCb}
    (he : EndsTransfer s f rcd s') (hcalls : s'.calls = s.calls ++ callOf (nftpHash f) rcd) :
    RanDefault f s s' ↔ RunsDefault f s := by
  obtain ⟨hnamed, hdefault⟩ := ht.ended he
  obtain ⟨c, a, -, -, hrcd, -⟩ := he.record
  obtain ⟨hs, hcase⟩ := hp
  have hreg := ht.inv.reg
  have hmem : ∀ {b rb}, s.heap b = some rb → b ∈ s.regs := fun hb => (hreg.mem_iff _).2 (by rw [hb]; rfl)
  constructor
  · rintro ⟨b, dflt, hb, hstar, hcalls'⟩ x - y - rx hrx ry hry hnx hny
    have hname : rcd.fname = f := by
      by_cases hhas : s₀.Has f
      · exact hnamed hs hhas
      · -- no record of the name came when the registry was full
        have hfull := (hcase.resolve_left fun hn => hhas (hi₀.reg.has_iff.2 hn)).1
        exact absurd ⟨x, rx, hrx, hnx⟩ (ht.full hhas hfull)
    have hxa := hreg.names x a rx rcd hrx hrcd (hnx.trans hname.symm)
    have hyb := hreg.names y b ry dflt hry hb (hny.trans hstar.symm)
    rw [hxa] at hrx
    rw [hyb] at hry
    cases hrcd.symm.trans hrx
    cases hb.symm.trans hry
    rw [hcalls, List.append_cancel_left_eq] at hcalls'
    exact hcalls'
  · intro hruns
    obtain ⟨b, dflt, -, hb, hstar⟩ := hreg.head
    refine ⟨b, dflt, hb, hstar, ?_⟩
    by_cases hhas : s₀.Has f
    · rw [hcalls, hruns a (hmem hrcd) b (hmem hb) rcd hrcd dflt hb (hnamed hs hhas) hstar]
    · have hab := hreg.names a b rcd dflt hrcd hb ((hdefault hhas).trans hstar.symm)
      rw [hab] at hrcd
      cases hrcd.symm.trans hb
      exact hcalls

/-- **What is left of a transfer in the registry**: once it is over there is no entry of its name exactly when its HELLO
pushed none.  A successful stop leaves no trace, and a block that completes the transfer leaves none and ran the default
callback, exactly when moreover there is room to register the name, and an entry found ran that callback. -/
theorem no_residue {es : List Event} (hl : Live s) (hp : parse msg = .ok (.ok, n))
    (ht : MsgType.ofCode n.type = some .hello) (hr : receive h s msg = .ok r) (hrv : r.rv = .ok)
    (hrun : Run (fun s e s' => Step s e s' ∧ e.NotOf n.name) r.st es s') :
    (s'.files (nftpHash n.name) = none → ((¬ ∃ i, s'.Named i n.name) ↔ n.name ≠ star ∧ KeepsRegistry s n.name)) ∧
    (∀ h' fname s'', nftpHash (fileBname fname) = nftpHash n.name → protoRecvStop h' s' fname = .ok (.ok, s'') →
      (Untraced n.name s'' ↔ PushesNone s n.name s')) ∧
    ∀ h' m r', (s'.files (nftpHash n.name)).isSome → receive h' s' m = .ok r' → r'.st.files (nftpHash n.name) = none →
      (Untraced n.name r'.st ∧ RanDefault n.name s' r'.st ↔ PushesNone s n.name s' ∧ RunsDefault n.name s') := by
  obtain ⟨hname, hdefault, hfull, hleft⟩ := hello_bound hl.inv hp ht hr hrv
  have hcstr : cstr n.name = n.name := cstr_cstr _
  have htrack : Tracked s n.name s' :=
    Run.invariant (I := Tracked s n.name) (fun s e s' ht he => ht.beside he.1 (step_beside ht.inv he.1 he.2)) hrun
      ⟨receive_inv hl.inv hr, hname, hdefault, hfull, hleft⟩
  refine ⟨htrack.over hl.inv, fun h' fname s'' hk hstop => ?_, fun h' m r' hsome hr' hgone => ?_⟩
  · have hs : Step s' (.recvStop h' fname) s'' := bind_eq_ok.2 ⟨_, hstop, rfl⟩
    have htrack' := htrack.beside hs (recvStop_beside htrack.inv hstop)
    obtain ⟨rcd, he⟩ := recvStop_ends htrack.inv hk hstop fun c hc => by
      obtain ⟨a, rcd, ha, hrcd, -⟩ := htrack.record hc
      exact ⟨a, rcd, ha, hrcd⟩
    exact htrack.untraced htrack' hl.inv hcstr he
  · obtain ⟨c, hc⟩ := Option.isSome_iff_exists.1 hsome
    have hs : Step s' (.msg h' m) r'.st := bind_eq_ok.2 ⟨_, hr', rfl⟩
    have htrack' := htrack.beside hs (step_beside htrack.inv hs (notOf_ending htrack.inv hr' hc hgone))
    obtain ⟨rcd, he, hcalls⟩ := receive_ends htrack.inv hr' hc hgone
    rw [htrack.untraced htrack' hl.inv hcstr he]
    exact and_congr_right fun hpush => htrack.ranDefault hl.inv hpush he hcalls

/-! ## Runs that compute -/

instance (s : State) (f : Bytes) : Decidable (∃ i, s.Named i f) :=
  decidable_of_iff (∃ a ∈ s.regs, ∃ rcd, s.heap a = some rcd ∧ rcd.fname = f) (by
    constructor
    · rintro ⟨a, ha, rcd, hrcd, hn⟩
      obtain ⟨i, hi⟩ := List.getElem?_of_mem ha
      exact ⟨i, a, rcd, hi, hrcd, hn⟩
    · rintro ⟨i, a, rcd, hi, hrcd, hn⟩
      exact ⟨a, List.mem_of_getElem? hi, rcd, hrcd, hn⟩)

instance (s : State) (f : Bytes) : Decidable (KeepsRegistry s f) := inferInstanceAs (Decidable (_ ∨ _))

instance (s : State) (f : Bytes) : Decidable (RunsDefault f s) :=
  inferInstanceAs (Decidable (∀ a ∈ s.regs, ∀ b ∈ s.regs, ∀ rcd ∈ s.heap a, ∀ dflt ∈ s.heap b, _ → _ → _))

instance (f : Bytes) (e : Event) : Decidable (e.NotOf f) :=
  match e with
  | .msg _ m => inferInstanceAs (Decidable (∀ n, parse m = .ok (.ok, n) → _))
  | .register .. => inferInstanceAs (Decidable (_ ≠ _))
  | .unregister _ => inferInstanceAs (Decidable (_ ≠ _))
  | .recvStop .. => inferInstanceAs (Decidable (_ ≠ _))
  | .maker .. => isTrue trivial
  | .setRecvdir _ => isTrue trivial
  | .setBlocksz _ => isTrue trivial
  | .disk _ => isTrue trivial

instance {s : State} {P : State → Prop} [DecidablePred P] {ok : State → Event → Bool} {es : List Event} :
    Decidable (∃ s', s.play ok es = some s' ∧ P s') :=
  inferInstanceAs (Decidable (∃ s' ∈ s.play ok es, P s'))

/-- The HELLO of a file of one block, and what follows it in `es`, taken from a state `nftp_proto_init` and `pre` lead to. -/
theorem hello_trace (pre es : List Event) (P : State → State → Prop) [∀ s, DecidablePred (P s)]
    (h : ((bootWith none 1 .empty).bind (·.play (fun _ _ => decide True) pre)).map (fun s => decide (∃ r,
      receive .good s (helloBytes 0 1 [0x66] (nftpHash [1, 2])) = .ok r ∧ r.rv = .ok ∧
      ∃ s', r.st.play (fun _ e => decide (e.NotOf [0x66])) es = some s' ∧ P s s')) = some true) :
    ∃ s r s' n, Live s ∧ parse (helloBytes 0 1 [0x66] (nftpHash [1, 2])) = .ok (.ok, n) ∧
      MsgType.ofCode n.type = some .hello ∧ n.name = [0x66] ∧
      receive .good s (helloBytes 0 1 [0x66] (nftpHash [1, 2])) = .ok r ∧ r.rv = .ok ∧
      Run (fun s e s' => Step s e s' ∧ e.NotOf [0x66]) r.st es s' ∧ P s s' := by
  obtain ⟨n, hp, ht, hname, -⟩ := parse_helloBytes 0 1 (nftpHash [1, 2]) (show [0x66].length < 2 ^ 16 by decide) rfl
  obtain ⟨s, hl, r, hr, hrv, s', hplay, hP⟩ := trace_live none 1 .empty pre _ h
  exact ⟨s, r, s', n, hl, hp, ht, hname, hr, hrv,
    (play_sound hplay).mono fun _ _ _ he => ⟨he.1, of_decide_eq_true he.2⟩, hP⟩

/-- A file received a second time, under the default callback both times: the second transfer is bound to the entry the first
one left, runs the default callback all the same, and leaves no trace. -/
theorem no_residue_again : ∃ s r r', Live s ∧ receive .good s (helloBytes 0 1 [0x66] (nftpHash [1, 2])) = .ok r ∧ r.rv = .ok ∧
    receive .good r.st (fileBytes [0x66] 0 [1, 2]) = .ok r' ∧ Untraced [0x66] r'.st ∧ RanDefault [0x66] r.st r'.st := by
  obtain ⟨s, r, s', n, hl, hp, ht, hname, hr, hrv, hrun, hnamed, hruns, hsome, r', hr', hgone⟩ := hello_trace
    [.register (some star) (some 5) 6, .msg .good (helloBytes 0 1 [0x66] (nftpHash [1, 2])),
      .msg .good (fileBytes [0x66] 0 [1, 2])] []
    (fun s s' => (∃ i, s.Named i [0x66]) ∧ RunsDefault [0x66] s' ∧ (s'.files (nftpHash [0x66])).isSome ∧
      ∃ r', receive .good s' (fileBytes [0x66] 0 [1, 2]) = .ok r' ∧ r'.st.files (nftpHash [0x66]) = none)
    (by decide +kernel)
  have hnil := run_nil_iff.1 hrun
  subst hnil
  rw [← hname] at hrun hnamed hruns hsome hgone
  have hend := (no_residue hl hp ht hr hrv hrun).2.2 _ _ _ hsome hr' hgone
  rw [hname] at hnamed hruns hend
  exact ⟨s, r, r', hl, hr, hrv, hr', hend.2 ⟨⟨by decide, .inl hnamed⟩, hruns⟩⟩

/-- A file nobody registered, received under the default callback: the record pushed under its name stays, and the name can
no longer be registered. -/
theorem default_leaves_record : ∃ s r s', Live s ∧ (¬ ∃ i, s.Named i [0x66]) ∧ s.files (nftpHash [0x66]) = none ∧
    receive .good s (helloBytes 0 1 [0x66] (nftpHash [1, 2])) = .ok r ∧ r.rv = .ok ∧
    Run (fun s e s' => Step s e s' ∧ e.NotOf [0x66]) r.st [.msg .good (fileBytes [0x66] 0 [1, 2])] s' ∧
    s'.files (nftpHash [0x66]) = none ∧ (∃ i, s'.Named i [0x66]) ∧
    ∃ s'', protoRegister s' (some [0x66]) (some 5) 6 = .ok (.ht, s'') := by
  obtain ⟨s, r, s', n, hl, hp, ht, hname, hr, hrv, hrun, hfree, hnone, hno, hhas, s'', hreg, -⟩ :=
    hello_trace [] [.msg .good (fileBytes [0x66] 0 [1, 2])]
      (fun s s' => s.files (nftpHash [0x66]) = none ∧ s'.files (nftpHash [0x66]) = none ∧ (¬ ∃ i, s.Named i [0x66]) ∧
        (∃ i, s'.Named i [0x66]) ∧ ∃ s'', protoRegister s' (some [0x66]) (some 5) 6 = .ok (.ht, s'') ∧ s''.files 0 = none)
      (by decide +kernel)
  exact ⟨s, r, s', hl, hno, hfree, hr, hrv, hrun, hnone, hhas, s'', hreg⟩

end Nftp
