import Nftp.Hello
import Nftp.Sender
import Nftp.Table
/-!
# Records — the callback records of live transfers

What each call does to the records of the registry, and when the record of a live transfer stays there.  A HELLO, the end
of a transfer, a stop and a registration keep every record another live transfer is bound to; `nftp_proto_unregister`
does not look at the transfers.
-/
namespace Nftp

open Lib

variable {h : Host} {s s' : State} {n : Packet} {msg : Bytes} {r : Ret} {c : Nctx} {a : Addr}

/-! ## What a message does to the records -/

theorem finish_heap (hreg : RegOk s) (ha : c.fcb = some a) {path : Path} (hr : finish h s c path = .ok r) :
    (r.rv ≠ .ok ∧ r.st.heap = s.heap ∧ r.st.files = s.files) ∨
    ∃ rcd, s.heap a = some rcd ∧ r.st.files = htErase s.files c.fileid ∧ r.st.calls = s.calls ++ callOf c.fileid rcd ∧
      ∀ b, r.st.heap b = if b = a ∧ rcd.fname ≠ star then none else s.heap b := by
  obtain ⟨path2, -, hcase⟩ := finish_cases hr
  rcases hcase with ⟨-, hrv, -, hst⟩ | ⟨content, -, -, -, -, ⟨-, hrv, hst⟩ | ⟨-, -, s₁, hrun, hst⟩⟩
  · exact .inl ⟨hrv, by rw [hst], by rw [hst]⟩
  · exact .inl ⟨hrv, by rw [hst], by rw [hst]⟩
  · have hreg' : RegOk { s with fs := s.fs.renamed path path2 content } := hreg.of_eq rfl rfl rfl
    rcases runCb_spec hreg' ha with ⟨-, hrun'⟩ | ⟨rcd, s₂, hrcd, hrun', -, -, hs₂, hheap⟩
    · rw [hrun'] at hrun
      cases hrun
    rw [hrun'] at hrun
    cases hrun
    have hfiles : s₁.files = s.files := (congrArg State.files hs₂).trans rfl
    refine .inr ⟨rcd, hrcd, by rw [hst, ← hfiles], ?_, fun b => ?_⟩
    · rw [hst]
      exact congrArg State.calls hs₂
    · rw [hst]
      exact hheap b

/-- **What a block does to the records**: nothing, or it ends its transfer, runs the callback of the record and releases the
record unless that is the default one. -/
theorem handleFile_heap (hi : Inv s) {b : Bytes} (hb : n.content = some b) (hn : b.length = n.ctlen)
    (hr : handleFile h s n = .ok r) :
    (r.st.heap = s.heap ∧ ((s.files n.fileid = none ∧ r.st = s) ∨
      ∃ c c', s.files n.fileid = some c ∧ c.Same c' ∧ r.st.files = Function.update s.files n.fileid (some c'))) ∨
    ∃ c a rcd, s.files n.fileid = some c ∧ c.fcb = some a ∧ s.heap a = some rcd ∧ r.st.files n.fileid = none ∧
      r.st.calls = s.calls ++ callOf n.fileid rcd ∧ ∀ b, r.st.heap b = if b = a ∧ rcd.fname ≠ star then none else s.heap b := by
  rcases handleFile_cases hr with ⟨hc, rfl⟩ | ⟨c, path, rv, c', fs', hc, hpath, hstore, hcase⟩
  · exact .inl ⟨rfl, .inl ⟨hc, rfl⟩⟩
  have hok := hi.ctx _ c hc
  obtain ⟨-, hsame, -⟩ := storeBlock_keeps hok.toWf hb hn hstore
  obtain ⟨a, ha, -⟩ := hok.fcb
  rcases hcase with ⟨-, rfl⟩ | ⟨-, -, hfin⟩
  · exact .inl ⟨rfl, .inr ⟨c, c', hc, hsame, rfl⟩⟩
  have hreg : RegOk { s with files := Function.update s.files n.fileid (some c'), fs := fs' } := hi.reg.of_eq rfl rfl rfl
  rcases finish_heap hreg (hsame.fcb.trans ha) hfin with ⟨-, hheap, hfiles⟩ | ⟨rcd, hrcd, hfiles, hcalls, hheap⟩
  · exact .inl ⟨hheap, .inr ⟨c, c', hc, hsame, hfiles⟩⟩
  · refine .inr ⟨c, a, rcd, hc, ha, hrcd, ?_, ?_, hheap⟩
    · rw [hfiles, hsame.fileid, hok.fileid]
      exact Function.update_self ..
    · rw [hcalls, hsame.fileid, hok.fileid]

/-- **What a HELLO does to the records**: it releases none, adds none under another name than its own, and the context it
stores is bound to one that is there. -/
theorem handleHello_heap (hi : Inv s) (hr : handleHello h s n = .ok r) :
    (∀ b rb, s.heap b = some rb → r.st.heap b = some rb) ∧
    (∀ b rb, r.st.heap b = some rb → s.heap b = some rb ∨ rb.fname = n.name) ∧
    (r.st.files = s.files ∨ ∃ a w, (s.heap a).isSome ∧
      r.st.files = Function.update s.files (nftpHash n.name) (some (helloCtx n a w))) := by
  rcases handleHello_cases hi.reg hr with ⟨-, rfl⟩ | ⟨-, a, s₁, w, path, hbind, hb, -, -, hcase⟩
  · exact ⟨fun _ _ hb => hb, fun _ _ hb => .inl hb, .inl rfl⟩
  have hnew : ∀ b rb, s₁.heap b = some rb → s.heap b = some rb ∨ rb.fname = n.name := by
    obtain ⟨a', r', s₂, hbind', -, -, hcase'⟩ := bindFcb_spec hi.reg (cstr_cstr (n.fname.getD []))
    have hbind'' : bindFcb s n.name = .ok (some a', s₂) := hbind'
    rw [hbind''] at hbind
    cases hbind
    rcases hcase' with ⟨-, rfl⟩ | ⟨-, -, ⟨-, rfl⟩ | ⟨-, reg, -, rfl⟩⟩
    · exact fun _ _ hb => .inl hb
    · exact fun _ _ hb => .inl hb
    · intro b rb hb
      replace hb : Function.update s.heap s.brk (some ⟨n.name, r'.cb, r'.arg⟩) b = some rb := hb
      by_cases hbrk : b = s.brk
      · rw [hbrk, Function.update_self] at hb
        cases hb
        exact .inr rfl
      · rw [Function.update_of_ne hbrk] at hb
        exact .inl hb
  obtain ⟨rcd, hrcd, -⟩ := hb.record
  rcases hcase with ⟨-, rfl⟩ | ⟨-, rv, rmsg, rlen, -, rfl⟩
  · exact ⟨hb.heap, hnew, .inl ((congrArg State.files hb.eq).trans rfl)⟩
  · exact ⟨hb.heap, hnew, .inr ⟨a, w, by rw [hrcd]; rfl, rfl⟩⟩

/-- Two live transfers share no record but the default one. -/
theorem Inv.record_key (hi : Inv s) {key key' : UInt32} {c' : Nctx} (hc : s.files key = some c) (ha : c.fcb = some a)
    (hc' : s.files key' = some c') (ha' : c'.fcb = some a) {rcd : FileCb} (hrcd : s.heap a = some rcd)
    (hns : rcd.fname ≠ star) : key = key' := by
  obtain ⟨b, hb, -, hname⟩ := (hi.ctx key c hc).fcb
  obtain ⟨b', hb', -, hname'⟩ := (hi.ctx key' c' hc').fcb
  rw [ha] at hb
  rw [ha'] at hb'
  cases hb
  cases hb'
  exact ((hname rcd hrcd).resolve_left hns).symm.trans ((hname' rcd hrcd).resolve_left hns)

/-! ## The records of live transfers -/

/-- Every live transfer is bound to a record of the registry. -/
def RecordsHeld (s : State) : Prop := ∀ key c, s.files key = some c → ∃ a ∈ s.regs, c.fcb = some a

theorem recordsHeld_iff (hreg : RegOk s) :
    RecordsHeld s ↔ ∀ key c, s.files key = some c → ∃ a, c.fcb = some a ∧ (s.heap a).isSome := by
  simp only [RecordsHeld, hreg.mem_iff, and_comm]

theorem RecordsHeld.record (hv : RecordsHeld s) (hreg : RegOk s) {key : UInt32} (hc : s.files key = some c)
    (ha : c.fcb = some a) : (s.heap a).isSome := by
  obtain ⟨b, hb, hs⟩ := (recordsHeld_iff hreg).1 hv key c hc
  rw [ha] at hb
  cases hb
  exact hs

/-- A step that changes no context and releases no record of a live one. -/
theorem RecordsHeld.of_heap (hv : RecordsHeld s) (hreg : RegOk s) (hreg' : RegOk s')
    (hstep : ∀ key c, s'.files key = some c → ∃ c₀, s.files key = some c₀ ∧ c.fcb = c₀.fcb ∧
      ∀ a, c.fcb = some a → (s.heap a).isSome → (s'.heap a).isSome) : RecordsHeld s' := by
  refine (recordsHeld_iff hreg').2 fun key c hc => ?_
  obtain ⟨c₀, hc₀, hf, hkeep⟩ := hstep key c hc
  obtain ⟨a, ha, hs⟩ := (recordsHeld_iff hreg).1 hv key c₀ hc₀
  exact ⟨a, hf.trans ha, hkeep a (hf.trans ha) hs⟩

theorem receive_held (hi : Inv s) (hv : RecordsHeld s) (hr : receive h s msg = .ok r) : RecordsHeld r.st := by
  have hinv := receive_inv hi hr
  rcases receive_kinds hr with ⟨hst, -⟩ | ⟨n, -, -, hr⟩ | ⟨n, b, -, -, hb, hn, hr⟩
  · rw [hst]
    exact hv
  · obtain ⟨hold, -, hfiles⟩ := handleHello_heap hi hr
    have hsome : ∀ a, (s.heap a).isSome → (r.st.heap a).isSome := by
      intro a hs
      obtain ⟨rcd, hrcd⟩ := Option.isSome_iff_exists.1 hs
      rw [hold a rcd hrcd]
      rfl
    rcases hfiles with hfiles | ⟨a, w, ha, hfiles⟩
    · exact hv.of_heap hi.reg hinv.reg fun key c hc => ⟨c, by rw [← hfiles]; exact hc, rfl, fun a _ => hsome a⟩
    · refine (recordsHeld_iff hinv.reg).2 fun key c hc => ?_
      rw [hfiles] at hc
      by_cases hk : key = nftpHash n.name
      · rw [hk, Function.update_self] at hc
        cases hc
        exact ⟨a, rfl, hsome a ha⟩
      · rw [Function.update_of_ne hk] at hc
        obtain ⟨b, hb, hs⟩ := (recordsHeld_iff hi.reg).1 hv key c hc
        exact ⟨b, hb, hsome b hs⟩
  · rcases handleFile_heap hi hb hn hr with ⟨hheap, ⟨-, hst⟩ | ⟨c₀, c₁, hc₀, hsame, hfiles⟩⟩ | ⟨c₀, a, rcd, hc₀, ha, hrcd, hgone, -, hheap⟩
    · rw [hst]
      exact hv
    · refine hv.of_heap hi.reg hinv.reg fun key c hc => ?_
      rw [hfiles] at hc
      by_cases hk : key = n.fileid
      · rw [hk, Function.update_self] at hc
        cases hc
        exact ⟨c₀, by rw [hk]; exact hc₀, hsame.fcb, fun a _ hs => by rw [hheap]; exact hs⟩
      · rw [Function.update_of_ne hk] at hc
        exact ⟨c, hc, rfl, fun a _ hs => by rw [hheap]; exact hs⟩
    · refine hv.of_heap hi.reg hinv.reg fun key c hc => ?_
      have hk : key ≠ n.fileid := by
        rintro rfl
        rw [hgone] at hc
        cases hc
      rw [(handleFile_effect hi hb hn hr).files key hk] at hc
      refine ⟨c, hc, rfl, fun b hcb hs => ?_⟩
      rw [hheap]
      by_cases hba : b = a ∧ rcd.fname ≠ star
      · -- the record of another transfer
        rw [hba.1] at hcb
        exact absurd (hi.record_key hc hcb hc₀ ha hrcd hba.2) hk
      · rw [if_neg hba]
        exact hs

/-- The call does not unregister the name of a record a live transfer is bound to. -/
def Event.Spares (s : State) : Event → Prop
  | .unregister fname => ∀ key c a, s.files key = some c → c.fcb = some a → ¬ s.Releases fname a
  | _ => True

/-- **A call keeps the records of live transfers exactly when it spares them.** -/
theorem step_held {e : Event} (hi : Inv s) (hv : RecordsHeld s) (hs : Step s e s') : RecordsHeld s' ↔ e.Spares s := by
  have hinv := step_inv hi hs
  have hsame : s'.files = s.files → s'.heap = s.heap → RecordsHeld s' := fun hfiles hheap =>
    hv.of_heap hi.reg hinv.reg fun key c hc => ⟨c, by rw [← hfiles]; exact hc, rfl, fun a _ hs => by rw [hheap]; exact hs⟩
  cases e with
  | msg h m =>
    obtain ⟨r, hr, hs⟩ := bind_eq_ok.1 hs
    cases hs
    exact iff_of_true (receive_held hi hv hr) trivial
  | register fname cb arg =>
    obtain ⟨-, -, hs', hrecs⟩ := step_register hi.reg hs
    refine iff_of_true (hv.of_heap hi.reg hinv.reg fun key c hc => ?_) trivial
    rw [congrArg State.files hs'] at hc
    refine ⟨c, hc, rfl, fun a _ hsome => ?_⟩
    obtain ⟨rcd, hrcd⟩ := Option.isSome_iff_exists.1 hsome
    obtain ⟨rcd', hrcd', -⟩ := hrecs.old a rcd hrcd
    rw [hrcd']
    rfl
  | unregister fname =>
    obtain ⟨-, -, hs', hheap⟩ := step_unregister hi.reg hs
    have hfiles : s'.files = s.files := (congrArg State.files hs').trans rfl
    constructor
    · intro hv' key c a hc ha hrel
      have hsome := hv'.record hinv.reg (by rw [hfiles]; exact hc) ha
      rw [hheap, if_pos hrel] at hsome
      cases hsome
    · intro hspare
      refine hv.of_heap hi.reg hinv.reg fun key c hc => ?_
      rw [hfiles] at hc
      exact ⟨c, hc, rfl, fun a ha hsome => by rw [hheap, if_neg (hspare key c a hc ha)]; exact hsome⟩
  | recvStop h fname =>
    obtain ⟨rv, hr⟩ := step_recvStop hs
    refine iff_of_true ?_ trivial
    rcases recvStop_cases hi.reg hr with ⟨-, -, rfl⟩ | ⟨c₀, hc₀, -, ⟨-, -, rfl⟩ | ⟨-, -, -, -, -, hs', hheap⟩⟩
    · exact hv
    · exact hv.of_heap hi.reg hinv.reg fun key c hc => ⟨c, erase_files hc, rfl, fun _ _ hsome => hsome⟩
    · refine hv.of_heap hi.reg hinv.reg fun key c hc => ?_
      rw [congrArg State.files hs'] at hc
      refine ⟨c, erase_files hc, rfl, fun b hcb hsome => ?_⟩
      rw [hheap, if_neg]
      · exact hsome
      · rintro ⟨hb, rcd, hrcd, hns⟩
        have hk := hi.record_key (erase_files hc) hcb hc₀ hb hrcd hns
        replace hc : htErase s.files (nftpHash (fileBname fname)) key = some c := hc
        rw [hk, htErase, Function.update_self] at hc
        cases hc
  | maker h fpath t key n =>
    have hst := step_maker hs
    exact iff_of_true (hsame ((congrArg State.files hst).trans rfl) ((congrArg State.heap hst).trans rfl)) trivial
  | setRecvdir dir => cases hs; exact iff_of_true (hsame rfl rfl) trivial
  | setBlocksz blksz => cases hs; exact iff_of_true (hsame rfl rfl) trivial
  | disk disk => cases hs; exact iff_of_true (hsame rfl rfl) trivial

end Nftp
