import Nftp.Teardown
/-!
# Ledger — every transfer is accounted for

A HELLO answered with success starts a transfer; the transfer ends with a block that is answered with success and a name, or
is stopped.  `transfers_accounted` is the balance of a whole run, for each file id; and no callback runs but for a transfer
that ends.
-/
namespace Nftp

open Lib

variable {h : Host} {s s' : State} {n : Packet} {msg : Bytes} {r : Ret} {g : UInt32} {x : Event × Answer}

/-! ## The entries -/

/-- A HELLO of the file id that is answered with success. -/
def Begun (g : UInt32) : Event × Answer → Prop
  | (.msg _ m, ans) =>
    ans.rv = .ok ∧ ∃ n, parse m = .ok (.ok, n) ∧ MsgType.ofCode n.type = some .hello ∧ nftpHash n.name = g
  | _ => False

/-- A block of the file id that is answered with success and the name of the file. -/
def Ended (g : UInt32) : Event × Answer → Prop
  | (.msg _ m, ans) => ans.rv = .ok ∧ ans.rmsg.isSome ∧ ∃ n, parse m = .ok (.ok, n) ∧ n.IsBlock ∧ n.fileid = g
  | _ => False

/-- A stop of the file id that found a transfer, whether the part file could be removed or not. -/
def Stopped (g : UInt32) : Event × Answer → Prop
  | (.recvStop _ fname, ans) => ans.rv ≠ .ht ∧ nftpHash (fileBname fname) = g
  | _ => False

instance (g : UInt32) : DecidablePred (Begun g)
  | (.msg _ m, ans) => inferInstanceAs (Decidable (ans.rv = .ok ∧ ∃ n, parse m = .ok (.ok, n) ∧ _))
  | (.register .., _) => isFalse id
  | (.unregister _, _) => isFalse id
  | (.recvStop .., _) => isFalse id
  | (.maker .., _) => isFalse id
  | (.setRecvdir _, _) => isFalse id
  | (.setBlocksz _, _) => isFalse id
  | (.disk _, _) => isFalse id

instance (g : UInt32) : DecidablePred (Ended g)
  | (.msg _ m, ans) => inferInstanceAs (Decidable (ans.rv = .ok ∧ ans.rmsg.isSome ∧ ∃ n, parse m = .ok (.ok, n) ∧ _))
  | (.register .., _) => isFalse id
  | (.unregister _, _) => isFalse id
  | (.recvStop .., _) => isFalse id
  | (.maker .., _) => isFalse id
  | (.setRecvdir _, _) => isFalse id
  | (.setBlocksz _, _) => isFalse id
  | (.disk _, _) => isFalse id

instance (g : UInt32) : DecidablePred (Stopped g)
  | (.recvStop _ fname, ans) => inferInstanceAs (Decidable (ans.rv ≠ .ht ∧ nftpHash (fileBname fname) = g))
  | (.msg .., _) => isFalse id
  | (.register .., _) => isFalse id
  | (.unregister _, _) => isFalse id
  | (.maker .., _) => isFalse id
  | (.setRecvdir _, _) => isFalse id
  | (.setBlocksz _, _) => isFalse id
  | (.disk _, _) => isFalse id

def State.live (s : State) (g : UInt32) : ℕ := if (s.files g).isSome then 1 else 0

/-- The callbacks run for the file id. -/
def State.ran (s : State) (g : UInt32) : ℕ := (s.calls.filter (·.fileid = g)).length

def entry (p : Prop) [Decidable p] : ℕ := if p then 1 else 0

@[simp] theorem entry_true {p : Prop} [Decidable p] (hp : p) : entry p = 1 := if_pos hp
@[simp] theorem entry_false {p : Prop} [Decidable p] (hp : ¬ p) : entry p = 0 := if_neg hp

theorem live_congr (hf : (s'.files g).isSome = (s.files g).isSome) : s'.live g = s.live g := by
  rw [State.live, State.live, hf]

theorem ran_congr (hc : s'.calls = s.calls) : s'.ran g = s.ran g := by
  rw [State.ran, State.ran, hc]

theorem live_some (hf : (s.files g).isSome) : s.live g = 1 := if_pos hf
theorem live_none (hf : s.files g = none) : s.live g = 0 := by rw [State.live, hf]; rfl

/-- What one call does to the balance of the file id. -/
structure Balances (g : UInt32) (s : State) (x : Event × Answer) (s' : State) : Prop where
  live : s.live g + entry (Begun g x) = s'.live g + entry (Ended g x) + entry (Stopped g x)
  ran : s'.ran g ≤ s.ran g + entry (Ended g x)

/-- A call that is no entry. -/
theorem balances_none (hb : ¬ Begun g x) (he : ¬ Ended g x) (hs : ¬ Stopped g x)
    (hf : (s'.files g).isSome = (s.files g).isSome) (hc : s'.ran g = s.ran g) : Balances g s x s' := by
  constructor
  · rw [live_congr hf, entry_false hb, entry_false he, entry_false hs]
  · rw [hc]
    exact Nat.le_add_right _ _

/-! ## The messages -/

/-- **A block ends its transfer, or leaves it**, and only then a callback may run. -/
theorem handleFile_closes (hi : Inv s) {b : Bytes} (hb : n.content = some b) (hn : b.length = n.ctlen)
    (hr : handleFile h s n = .ok r) :
    (r.rv = .ok ∧ r.rmsg.isSome ∧ (s.files n.fileid).isSome ∧ r.st.files n.fileid = none ∧
      ∃ rcd, r.st.calls = s.calls ++ callOf n.fileid rcd) ∨
    (¬ (r.rv = .ok ∧ r.rmsg.isSome) ∧ (r.st.files n.fileid).isSome = (s.files n.fileid).isSome ∧ r.st.calls = s.calls) := by
  rcases handleFile_cases hr with ⟨hc, rfl⟩ | ⟨c, path, rv, c', fs', hc, -, hstore, hcase⟩
  · exact .inr ⟨fun hok => (by cases hok.1), rfl, rfl⟩
  have hstay : (Function.update s.files n.fileid (some c') n.fileid).isSome = (s.files n.fileid).isSome := by
    rw [Function.update_self, hc]
    rfl
  have hok := hi.ctx _ c hc
  obtain ⟨-, hsame, -⟩ := storeBlock_keeps hok.toWf hb hn hstore
  obtain ⟨a, ha, -⟩ := hok.fcb
  rcases hcase with ⟨-, rfl⟩ | ⟨-, -, hfin⟩
  · exact .inr ⟨fun hok => (by cases hok.2), hstay, rfl⟩
  obtain ⟨path2, -, ⟨-, hrv, -, hst⟩ | ⟨content, -, -, hmsg, -, ⟨-, hrv, hst⟩ | ⟨-, hrv, s₁, hrun, hst⟩⟩⟩ := finish_cases hfin
  · exact .inr ⟨fun hok => hrv hok.1, by rw [hst]; exact hstay, by rw [hst]⟩
  · exact .inr ⟨fun hok => hrv hok.1, by rw [hst]; exact hstay, by rw [hst]⟩
  · have hreg : RegOk { s with
        files := Function.update s.files n.fileid (some c'), fs := fs'.renamed path path2 content } := hi.reg.of_eq rfl rfl rfl
    rcases runCb_spec hreg (hsame.fcb.trans ha) with ⟨-, hrun'⟩ | ⟨rcd, s₂, -, hrun', -, -, hs₂, -⟩
    · rw [hrun'] at hrun
      cases hrun
    rw [hrun'] at hrun
    cases hrun
    have hid : c'.fileid = n.fileid := hsame.fileid.trans hok.fileid
    refine .inl ⟨hrv, by rw [hmsg]; rfl, by rw [hc]; rfl, ?_, rcd, ?_⟩
    · rw [hst]
      show htErase s₁.files c'.fileid n.fileid = none
      rw [hid]
      exact Function.update_self ..
    · rw [hst, ← hid]
      exact (congrArg State.calls hs₂).trans rfl

theorem filter_callOf_length (g : UInt32) (rcd : FileCb) : (callOf g rcd).length ≤ 1 := by
  unfold callOf
  cases rcd.cb with
  | none => exact Nat.zero_le _
  | some cb => exact Nat.le_refl _

/-- A message about another file id, or about none. -/
theorem elsewhere_balances (hi : Inv s) (hr : receive h s msg = .ok r) (hn : ∀ n, parse msg = .ok (.ok, n) → n.key ≠ some g) :
    Balances g s (.msg h msg, ⟨r.rv, r.rmsg, r.rlen⟩) r.st := by
  have hbegun : ¬ Begun g (.msg h msg, ⟨r.rv, r.rmsg, r.rlen⟩) := by
    rintro ⟨-, n, hp, ht, hg⟩
    exact hn n hp (by rw [key_hello ht, hg])
  have hend : ¬ Ended g (.msg h msg, ⟨r.rv, r.rmsg, r.rlen⟩) := by
    rintro ⟨-, -, n, hp, hblock, hg⟩
    exact hn n hp (by rw [hblock.key_eq, hg])
  rcases receive_effect hi hr with hst | ⟨n, key, hp, hkey, heff⟩
  · exact balances_none hbegun hend id (by rw [hst]) (by rw [hst])
  have hne : key ≠ g := fun hk => hn n hp (by rw [hkey, hk])
  refine balances_none hbegun hend id (by rw [heff.files g hne.symm]) ?_
  obtain ⟨cs, hcs, hall⟩ := heff.calls
  have hnil : cs.filter (·.fileid = g) = [] := by
    rw [List.filter_eq_nil_iff]
    intro y hy hyg
    exact hne ((hall y hy).symm.trans (of_decide_eq_true hyg))
  rw [State.ran, State.ran, hcs, List.filter_append, hnil, List.append_nil]

/-- A HELLO starts a transfer of its file id exactly when it is answered with success. -/
theorem hello_balances (hi : Inv s) (hp : parse msg = .ok (.ok, n)) (ht : MsgType.ofCode n.type = some .hello)
    (hr : handleHello h s n = .ok r) :
    Balances (nftpHash n.name) s (.msg h msg, ⟨r.rv, r.rmsg, r.rlen⟩) r.st := by
  have hend : ¬ Ended (nftpHash n.name) (.msg h msg, ⟨r.rv, r.rmsg, r.rlen⟩) := by
    rintro ⟨-, -, n', hp', hblock, -⟩
    rw [hp] at hp'
    cases hp'
    exact hblock.not_hello ht
  have hrefused : r.rv ≠ .ok → ¬ Begun (nftpHash n.name) (.msg h msg, ⟨r.rv, r.rmsg, r.rlen⟩) :=
    fun hrv hbegun => hrv hbegun.1
  rcases handleHello_cases hi.reg hr with
    ⟨-, rfl⟩ | ⟨-, a, s₁, w, path, -, hbound, -, -, ⟨-, rfl⟩ | ⟨-, rv, rmsg, rlen, hcode, rfl⟩⟩
  · exact balances_none (hrefused (show Rv.ht ≠ .ok by decide)) hend id rfl rfl
  · have hfiles : s₁.files = s.files := (congrArg State.files hbound.eq).trans rfl
    have hcalls : s₁.calls = s.calls := (congrArg State.calls hbound.eq).trans rfl
    exact balances_none (hrefused (show Rv.file ≠ .ok by decide)) hend id (by rw [hfiles]) (ran_congr hcalls)
  let s₂ : State := { s₁ with
    files := Function.update s.files (nftpHash n.name) (some (helloCtx n a w)), fs := s.fs.created path }
  have hcalls : s₂.calls = s.calls := (congrArg State.calls hbound.eq).trans rfl
  have hsome : (s₂.files (nftpHash n.name)).isSome := by
    show (Function.update s.files (nftpHash n.name) _ _).isSome
    rw [Function.update_self]
    rfl
  rcases hcode with ⟨hrun, rfl, rfl, rfl⟩ | ⟨hnone, rfl, rfl, rfl⟩
  · -- a HELLO of a running transfer puts another context into its place
    exact balances_none (hrefused (show Rv.ht ≠ .ok by decide)) hend id (hsome.trans hrun.symm) (ran_congr hcalls)
  · have hbegun : Begun (nftpHash n.name) (.msg h msg, ⟨.ok, some (ackOf n.id n.name), 10⟩) := ⟨rfl, n, hp, ht, rfl⟩
    constructor
    · rw [entry_true hbegun, entry_false hend, entry_false (p := Stopped (nftpHash n.name) _) id, live_none hnone,
        live_some (s := s₂) hsome]
    · have hran : s₂.ran (nftpHash n.name) = s.ran (nftpHash n.name) := ran_congr hcalls
      exact hran.le.trans (Nat.le_add_right _ _)

/-- A block ends the transfer of its file id exactly when it is answered with success and a name. -/
theorem block_balances (hi : Inv s) (hp : parse msg = .ok (.ok, n)) (hblock : n.IsBlock) {b : Bytes}
    (hb : n.content = some b) (hl : b.length = n.ctlen) (hr : handleFile h s n = .ok r) :
    Balances n.fileid s (.msg h msg, ⟨r.rv, r.rmsg, r.rlen⟩) r.st := by
  have hbegun : ¬ Begun n.fileid (.msg h msg, ⟨r.rv, r.rmsg, r.rlen⟩) := by
    rintro ⟨-, n', hp', ht, -⟩
    rw [hp] at hp'
    cases hp'
    exact hblock.not_hello ht
  rcases handleFile_closes hi hb hl hr with ⟨hrv, hmsg, hsome, hnone, rcd, hcalls⟩ | ⟨hno, hfiles, hcalls⟩
  · have hend : Ended n.fileid (.msg h msg, ⟨r.rv, r.rmsg, r.rlen⟩) := ⟨hrv, hmsg, n, hp, hblock, rfl⟩
    constructor
    · rw [entry_false hbegun, entry_true hend, entry_false (p := Stopped n.fileid _) id, live_some hsome, live_none hnone]
    · rw [State.ran, State.ran, hcalls, List.filter_append, List.length_append, entry_true hend]
      exact Nat.add_le_add_left ((List.length_filter_le _ _).trans (filter_callOf_length _ _)) _
  · exact balances_none hbegun (fun hend => hno ⟨hend.1, hend.2.1⟩) id hfiles (ran_congr hcalls)

theorem receive_balances (hi : Inv s) (hr : receive h s msg = .ok r) :
    Balances g s (.msg h msg, ⟨r.rv, r.rmsg, r.rlen⟩) r.st := by
  by_cases hn : ∃ n, parse msg = .ok (.ok, n) ∧ n.key = some g
  swap
  · exact elsewhere_balances hi hr fun n hp hkey => hn ⟨n, hp, hkey⟩
  obtain ⟨n, hp, hkey⟩ := hn
  rcases receive_kinds hr with ⟨hst, hno⟩ | ⟨n', hp', ht, hr'⟩ | ⟨n', b, hp', hblock, hb, hl, hr'⟩
  · refine balances_none ?_ ?_ id (by rw [hst]) (by rw [hst])
    · rintro ⟨-, n', hp', ht, -⟩
      exact (hno n' hp').1 ht
    · rintro ⟨-, -, n', hp', hblock, -⟩
      exact (hno n' hp').2 hblock
  · rw [hp] at hp'
    cases hp'
    rw [key_hello ht] at hkey
    cases hkey
    exact hello_balances hi hp ht hr'
  · rw [hp] at hp'
    cases hp'
    rw [hblock.key_eq] at hkey
    cases hkey
    exact block_balances hi hp hblock hb hl hr'

/-! ## The other calls -/

theorem recvStop_ht {fname : Bytes} (hr : protoRecvStop h s fname = .ok (.ht, s')) :
    s.files (nftpHash (fileBname fname)) = none := by
  unfold protoRecvStop at hr
  simp only at hr
  cases hc : s.files (nftpHash (fileBname fname)) with
  | none => rfl
  | some c =>
    rw [hc] at hr
    obtain ⟨path, -, hr⟩ := bind_eq_ok.1 hr
    rw [fileRemove_eq] at hr
    cases hd : s.fs.disk path with
    | none =>
      rw [hd] at hr
      cases hr
    | some old =>
      rw [hd] at hr
      cases hrem : h.remove with
      | false =>
        rw [hrem] at hr
        cases hr
      | true =>
        simp only [hrem, Bool.true_eq_false, if_false, ne_eq, not_true_eq_false] at hr
        obtain ⟨s₁, -, hr⟩ := bind_eq_ok.1 hr
        cases hr

theorem recvStop_balances {fname : Bytes} {rv : Rv} (hi : Inv s) (hr : protoRecvStop h s fname = .ok (rv, s')) :
    Balances g s (.recvStop h fname, ⟨rv, none, 0⟩) s' := by
  have hcalls : s'.calls = s.calls := by
    rcases recvStop_cases hi.reg hr with ⟨-, -, rfl⟩ | ⟨c, -, -, ⟨-, -, rfl⟩ | ⟨-, -, -, -, -, hs', -⟩⟩
    · rfl
    · rfl
    · exact (congrArg State.calls hs').trans rfl
  rcases recvStop_cases hi.reg hr with ⟨-, rfl, rfl⟩ | ⟨c, hc, -, hcase⟩
  · exact balances_none id id (fun hstop => hstop.1 rfl) rfl rfl
  have hfiles : s'.files = htErase s.files (nftpHash (fileBname fname)) := by
    rcases hcase with ⟨-, -, rfl⟩ | ⟨-, -, -, -, -, hs', -⟩
    · rfl
    · exact (congrArg State.files hs').trans rfl
  by_cases hg : g = nftpHash (fileBname fname)
  · have hstop : Stopped g (.recvStop h fname, ⟨rv, none, 0⟩) := by
      refine ⟨fun hrv => ?_, hg.symm⟩
      obtain rfl : rv = .ht := hrv
      rw [recvStop_ht hr] at hc
      cases hc
    constructor
    · rw [entry_true hstop, entry_false (p := Begun g _) id, entry_false (p := Ended g _) id, live_some (by rw [hg, hc]; rfl),
        live_none]
      rw [hfiles, hg]
      exact Function.update_self ..
    · rw [ran_congr hcalls]
      exact Nat.le_add_right _ _
  · refine balances_none id id (fun hstop => hg hstop.2.symm) ?_ (ran_congr hcalls)
    rw [hfiles, htErase, Function.update_of_ne hg]

/-- **One call keeps the balance.** -/
theorem callStep_balances (hi : Inv s) (hs : CallStep s x s') : Balances g s x s' := by
  obtain ⟨e, rv, rmsg, rlen⟩ := x
  have hstep : Step s e s' := step_iff_call.2 ⟨_, hs⟩
  cases e with
  | msg h m => exact receive_balances (r := ⟨rv, rmsg, rlen, s'⟩) hi hs
  | register fname cb arg =>
    obtain ⟨-, -, hs', -⟩ := step_register hi.reg hstep
    exact balances_none id id id (by rw [congrArg State.files hs']; rfl) (ran_congr ((congrArg State.calls hs').trans rfl))
  | unregister fname =>
    obtain ⟨-, -, hs', -⟩ := step_unregister hi.reg hstep
    exact balances_none id id id (by rw [congrArg State.files hs']; rfl) (ran_congr ((congrArg State.calls hs').trans rfl))
  | recvStop h fname =>
    obtain ⟨⟨rv', s''⟩, hr, hs⟩ := bind_eq_ok.1 hs
    cases hs
    exact recvStop_balances hi hr
  | maker h fpath t key i =>
    have hst := step_maker hstep
    exact balances_none id id id (by rw [congrArg State.files hst]) (ran_congr ((congrArg State.calls hst).trans rfl))
  | setRecvdir dir => cases hs; exact balances_none id id id rfl rfl
  | setBlocksz blksz => cases hs; exact balances_none id id id rfl rfl
  | disk disk => cases hs; exact balances_none id id id rfl rfl

/-! ## Runs -/

theorem booted_calls (hb : Booted s) : s.calls = [] := by
  obtain ⟨dir, blksz, fs, hinit⟩ := hb
  obtain ⟨s₁, hinit', -, hs₁⟩ := protoInit_spec (s := State.boot (Option.map cstr dir) blksz fs) rfl
  rw [hinit'] at hinit
  cases hinit
  exact (congrArg State.calls hs₁).trans rfl

/-- **Every transfer is accounted for.**  Over any run of calls from `nftp_proto_init`, and for every file id, the HELLOs
answered with success are as many as the blocks answered with the name of a file, the stops that found a transfer and the
transfer that is running; and no more callbacks have run for the file id than transfers of it have ended. -/
theorem transfers_accounted {s₀ : State} {es : List (Event × Answer)} (hb : Booted s₀) (hrun : Run CallStep s₀ es s)
    (g : UInt32) : es.countP (Begun g) = es.countP (Ended g) + es.countP (Stopped g) + s.live g ∧
      s.ran g ≤ es.countP (Ended g) := by
  have hall : Inv s ∧ es.countP (Begun g) = es.countP (Ended g) + es.countP (Stopped g) + s.live g ∧
      s.ran g ≤ es.countP (Ended g) := by
    refine Run.history (I := fun es s => Inv s ∧ es.countP (Begun g) = es.countP (Ended g) + es.countP (Stopped g) + s.live g ∧
      s.ran g ≤ es.countP (Ended g)) ⟨booted_inv hb, ?_, ?_⟩ ?_ hrun
    · rw [live_none (booted_files hb g)]
      rfl
    · rw [State.ran, booted_calls hb]
      rfl
    · rintro es s x s' ⟨hi, hlive, hran⟩ hs
      obtain ⟨hl, hr⟩ := callStep_balances (g := g) hi hs
      have hcount : ∀ p : Event × Answer → Prop, ∀ [DecidablePred p], (es ++ [x]).countP p = es.countP p + entry (p x) := by
        intro p _
        rw [List.countP_append, List.countP_singleton]
        simp only [entry, decide_eq_true_eq]
      refine ⟨step_inv hi (step_iff_call.2 ⟨x.2, hs⟩), ?_, ?_⟩
      · rw [hcount, hcount, hcount]
        omega
      · rw [hcount]
        omega
  exact hall.2

/-- Two HELLOs of one name: the file of the first one arrives, that of the second is stopped. -/
def twice : List (Event × Answer) :=
  [(.register (some [0x66]) (some 5) 6, ⟨.ok, none, 0⟩),
    (.msg .good (helloBytes 0 1 [0x66] (nftpHash [1, 2])), ⟨.ok, some (ackOf 0 [0x66]), 10⟩),
    (.msg .good (fileBytes [0x66] 0 [1, 2]), ⟨.ok, some [0x66], 1⟩),
    (.msg .good (helloBytes 0 1 [0x66] (nftpHash [1, 2])), ⟨.ok, some (ackOf 0 [0x66]), 10⟩),
    (.recvStop .good [0x66], ⟨.ok, none, 0⟩)]

theorem transfers_accounted_twice : ∃ s₀ s, Booted s₀ ∧ Run CallStep s₀ twice s ∧ twice.countP (Begun (nftpHash [0x66])) = 2 ∧
    2 = 1 + 1 + s.live (nftpHash [0x66]) ∧ s.ran (nftpHash [0x66]) ≤ 1 := by
  obtain ⟨m₀, m, hb, hrun⟩ := machine_trace none 1 .empty twice (by decide +kernel)
  obtain ⟨hm₀, hb₀⟩ := hb.ok
  have hrun' := (run_ok hm₀ hrun).2
  have hbegun : twice.countP (Begun (nftpHash [0x66])) = 2 := by decide +kernel
  have hended : twice.countP (Ended (nftpHash [0x66])) = 1 := by decide +kernel
  have hstopped : twice.countP (Stopped (nftpHash [0x66])) = 1 := by decide +kernel
  obtain ⟨hlive, hran⟩ := transfers_accounted hb₀ hrun' (nftpHash [0x66])
  rw [hbegun, hended, hstopped] at hlive
  rw [hended] at hran
  exact ⟨m₀.abs, m.abs, hb₀, hrun', hbegun, hlive, hran⟩

end Nftp
