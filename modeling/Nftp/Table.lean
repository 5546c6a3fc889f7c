import Nftp.Trace
/-!
# Table — indices into the block table

Which FILE and END messages keep the handler inside `ctx->entries`.  The store branch uses the sequence number as it
comes; the drain loop stays below `cap` by its own test, but appends one block too many to a context that is complete.
-/
namespace Nftp

open Lib

/-- The block is one of the file's; or it is the one behind the last, as the context's next, and cannot be appended. -/
def InTable (h : Host) (s : State) (n : Packet) : Prop :=
  ∀ c, s.files n.fileid = some c → n.blockseq.toNat < c.cap ∨
    n.blockseq.toNat = c.nextid ∧ (s.fs.disk (s.part c.wfname) = none ∨ ¬ (h.append 0).Took n.ctlen)

def Event.InTable (s : State) : Event → Prop
  | .msg h m => ∀ n, parse m = .ok (.ok, n) → n.IsBlock → Nftp.InTable h s n
  | _ => True

instance (h : Host) (s : State) (n : Packet) : Decidable (InTable h s n) :=
  match hc : s.files n.fileid with
  | none => isTrue fun c hc' => by rw [hc] at hc'; cases hc'
  | some c =>
    decidable_of_iff (n.blockseq.toNat < c.cap ∨
        n.blockseq.toNat = c.nextid ∧ (s.fs.disk (s.part c.wfname) = none ∨ ¬ (h.append 0).Took n.ctlen))
      ⟨fun h' d hd => by rw [hc] at hd; cases hd; exact h', fun h' => h' c hc⟩

instance (s : State) (e : Event) : Decidable (e.InTable s) :=
  match e with
  | .msg h m =>
    match hp : parse m with
    | .error _ => isTrue fun n hn => by rw [hp] at hn; cases hn
    | .ok (rv, n) =>
      if hrv : rv = .ok then
        decidable_of_iff (n.IsBlock → Nftp.InTable h s n)
          ⟨fun h' n' hn' => by rw [hp] at hn'; cases hn'; exact h', fun h' => h' n (by rw [hp, hrv])⟩
      else isTrue fun n' hn' => by rw [hp] at hn'; cases hn'; exact absurd rfl hrv
  | .register .. => isTrue trivial
  | .unregister _ => isTrue trivial
  | .recvStop .. => isTrue trivial
  | .maker .. => isTrue trivial
  | .setRecvdir _ => isTrue trivial
  | .setBlocksz _ => isTrue trivial
  | .disk _ => isTrue trivial

/-- The positions of all contexts are in their tables. -/
def Positions (s : State) : Prop := ∀ key c, s.files key = some c → c.nextid ≤ c.cap

variable {h : Host} {s s' : State} {n : Packet} {msg : Bytes} {r : Ret}

theorem storeBlock_position {path : Path} {c c' : Nctx} {fs fs' : Fs} {b : Bytes} {rv : Rv} (hw : c.Wf)
    (hb : n.content = some b) (hn : b.length = n.ctlen) (hpos : c.nextid ≤ c.cap)
    (hr : storeBlock h path c fs n = .ok (rv, c', fs')) : c'.nextid ≤ c.cap ↔
      n.blockseq.toNat < c.cap ∨
        n.blockseq.toNat = c.nextid ∧ (fs.disk path = none ∨ ¬ (h.append 0).Took n.ctlen) := by
  by_cases hseq : n.blockseq.toNat = c.nextid
  · cases hd : fs.disk path with
    | none =>
      rw [storeBlock_missing h hseq hd] at hr
      cases hr
      exact ⟨fun _ => .inr ⟨hseq, .inl rfl⟩, fun _ => hpos⟩
    | some old =>
      obtain ⟨j, rv', fs'', hrun, happ⟩ := storeBlock_next h path hw hseq hb hn (by rw [hd]; rfl)
      rw [hrun] at hr
      cases hr
      cases j with
      | zero =>
        have hstop := happ.stop b rfl
        rw [hn] at hstop
        exact ⟨fun _ => .inr ⟨hseq, .inr hstop⟩, fun _ => hpos⟩
      | succ j =>
        have htook := happ.took 0 b (Nat.succ_pos j) rfl
        rw [hn] at htook
        have hle : j ≤ c.run.length := by have := happ.le; rw [List.length_cons] at this; omega
        have hrun := cachedRun_length c.entries (c.nextid + 1)
        rw [hw.length] at hrun
        have hnext : (c.appended (j + 1) rv).nextid = c.nextid + 1 + j := rfl
        rw [hnext]
        constructor
        · intro hlt
          exact .inl (by omega)
        · rintro (hlt | ⟨-, hd' | hf⟩)
          · have : j ≤ c.cap - (c.nextid + 1) := Nat.le_trans hle hrun
            omega
          · cases hd'
          · exact absurd htook hf
  · by_cases hcap : c.cap ≤ n.blockseq.toNat
    · rw [storeBlock_outside h path fs hw hseq hcap] at hr
      cases hr
    · obtain ⟨e, he⟩ : ∃ e, c.entries[n.blockseq.toNat]? = some e :=
        ⟨_, List.getElem?_eq_getElem (by rw [hw.length]; omega)⟩
      rw [storeBlock_cache h path fs hseq he] at hr
      cases hr
      exact ⟨fun _ => .inl (by omega), fun _ => hpos⟩

/-- **A block that is handled keeps the positions in their tables exactly when it is in its table.** -/
theorem handleFile_positions (hi : Inv s) (hp : Positions s) {b : Bytes} (hb : n.content = some b)
    (hn : b.length = n.ctlen) (hr : handleFile h s n = .ok r) : Positions r.st ↔ InTable h s n := by
  have heff := handleFile_effect hi hb hn hr
  rcases handleFile_cases hr with ⟨hc, rfl⟩ | ⟨c, path, rv, c', fs', hc, hpath, hstore, hcase⟩
  · refine ⟨fun _ c hc' => ?_, fun _ => hp⟩
    rw [hc] at hc'
    cases hc'
  obtain ⟨rfl, -⟩ := partPath_eq_ok hpath
  have hok := hi.ctx _ c hc
  obtain ⟨-, hsame, -⟩ := storeBlock_keeps hok.toWf hb hn hstore
  have hpos := storeBlock_position hok.toWf hb hn (hp _ c hc) hstore
  have htab : InTable h s n ↔ c'.nextid ≤ c.cap := by
    rw [hpos]
    exact ⟨fun h' => h' c hc, fun h' d hd => by rw [hc] at hd; cases hd; exact h'⟩
  rw [htab, ← hsame.cap]
  constructor
  · intro hr'
    rcases hcase with ⟨-, rfl⟩ | ⟨-, heq, -⟩
    · exact hr' n.fileid c' (Function.update_self ..)
    · exact Nat.le_of_eq heq
  · intro hle g d hg
    by_cases hgk : g = n.fileid
    · subst hgk
      rcases hcase with ⟨-, rfl⟩ | ⟨-, -, hfin⟩
      · replace hg : Function.update s.files n.fileid (some c') n.fileid = some d := hg
        rw [Function.update_self] at hg
        cases hg
        exact hle
      · rcases finish_files (hsame.fileid.trans hok.fileid) hfin with ⟨-, hf⟩ | ⟨-, hf⟩
        · rw [hf] at hg; cases hg
        · rw [hf] at hg
          replace hg : Function.update s.files n.fileid (some c') n.fileid = some d := hg
          rw [Function.update_self] at hg
          cases hg
          exact hle
    · rw [heff.files g hgk] at hg
      exact hp g d hg

theorem finish_no_tableIndex (hreg : RegOk s) {c : Nctx} {a : Addr} (hf : c.fcb = some a) (path : Path) :
    finish h s c path ≠ .error .tableIndex := by
  intro hr
  rcases bind_eq_error.1 hr with hr | ⟨path2, -, hr⟩
  · cases fileFullpath_error hr
  rw [fileRename_eq] at hr
  cases hd : s.fs.disk path with
  | none => simp only [hd, State.ret, ne_eq, reduceCtorEq, not_false_eq_true, if_true] at hr
  | some content =>
    cases hren : h.rename with
    | false => simp only [hd, hren, State.ret, ne_eq, reduceCtorEq, not_false_eq_true, if_true] at hr
    | true =>
      simp only [hd, hren, Bool.true_eq_false, if_false, ne_eq, not_true_eq_false] at hr
      split at hr
      · cases hr
      split at hr
      · cases hr
      have hreg' : RegOk { s with fs := s.fs.renamed path path2 content } := hreg.of_eq rfl rfl rfl
      rcases bind_eq_error.1 hr with hr | ⟨s₁, -, hr⟩
      · rcases runCb_spec hreg' hf with ⟨-, hrun⟩ | ⟨rec, s₁, -, hrun, -⟩
        · rw [hrun] at hr; cases hr
        · rw [hrun] at hr; cases hr
      · cases hr

/-- **A block in its table is handled without an index outside it.** -/
theorem handleFile_no_tableIndex (hi : Inv s) {b : Bytes} (hb : n.content = some b) (hn : b.length = n.ctlen)
    (ht : InTable h s n) : handleFile h s n ≠ .error .tableIndex := by
  intro hr
  unfold handleFile at hr
  cases hc : s.files n.fileid with
  | none => simp only [hc, State.ret, reduceCtorEq] at hr
  | some c =>
    simp only [hc] at hr
    have hok := hi.ctx _ c hc
    rcases bind_eq_error.1 hr with hr | ⟨path, hpath, hr⟩
    · cases partPath_error hr
    obtain ⟨rfl, -⟩ := partPath_eq_ok hpath
    rcases bind_eq_error.1 hr with hs | ⟨⟨rv, c', fs'⟩, hs, hr⟩
    · by_cases hseq : n.blockseq.toNat = c.nextid
      · cases hd : s.fs.disk (s.part c.wfname) with
        | none => rw [storeBlock_missing h hseq hd] at hs; cases hs
        | some old =>
          obtain ⟨j, rv, fs', hrun, -⟩ := storeBlock_next h (s.part c.wfname) hok.toWf hseq hb hn (by rw [hd]; rfl)
          rw [hrun] at hs
          cases hs
      · rcases ht c hc with hlt | ⟨heq, -⟩
        · obtain ⟨e, he⟩ : ∃ e, c.entries[n.blockseq.toNat]? = some e :=
            ⟨_, List.getElem?_eq_getElem (by rw [hok.length]; exact hlt)⟩
          rw [storeBlock_cache h _ s.fs hseq he] at hs
          cases hs
        · exact hseq heq
    · obtain ⟨-, hsame, -⟩ := storeBlock_keeps hok.toWf hb hn hs
      obtain ⟨a, ha, -⟩ := hok.fcb
      simp only at hr
      split at hr
      · cases hr
      split at hr
      · refine absurd hr (finish_no_tableIndex ?_ (hsame.fcb.trans ha) _)
        exact hi.reg.of_eq rfl rfl rfl
      · cases hr

/-! ## Runs -/

theorem handleHello_positions (hi : Inv s) (hp : Positions s) (hr : handleHello h s n = .ok r) : Positions r.st := by
  intro g d hg
  rcases handleHello_ctx hi.reg hr hg with hg | ⟨-, a, w, rfl, -⟩
  · exact hp g d hg
  · exact Nat.zero_le _

/-- **A message that is handled keeps the positions in their tables exactly when its block is in its table.** -/
theorem receive_positions (hi : Inv s) (hp : Positions s) (hr : receive h s msg = .ok r) :
    Positions r.st ↔ (Event.msg h msg).InTable s := by
  rcases receive_kinds hr with ⟨hst, hno⟩ | ⟨n, hparse, ht, hr⟩ | ⟨n, b, hparse, hblock, hb, hn, hr⟩
  · rw [hst]
    exact ⟨fun _ n hparse hblock => absurd hblock (hno n hparse).2, fun _ => hp⟩
  · have hone : (Event.msg h msg).InTable s ↔ (n.IsBlock → InTable h s n) := parse_forall hparse
    rw [hone]
    exact ⟨fun _ hblock => absurd ht hblock.not_hello, fun _ => handleHello_positions hi hp hr⟩
  · have hone : (Event.msg h msg).InTable s ↔ (n.IsBlock → InTable h s n) := parse_forall hparse
    rw [hone, handleFile_positions hi hp hb hn hr]
    exact ⟨fun ht _ => ht, fun ht => ht hblock⟩

theorem step_positions {e : Event} (hi : Inv s) (hp : Positions s) (hs : Step s e s') (ht : e.InTable s) :
    Positions s' := by
  rcases step_cases hi hs with ⟨h, m, r, rfl, hr, rfl⟩ | ⟨-, hq⟩
  · exact (receive_positions hi hp hr).2 ht
  · exact fun g c hg => hp g c (hq.files g c hg)

theorem booted_tables (hb : Booted s) (key : UInt32) : s.files key = none ∧ s.senderfiles key = none := by
  obtain ⟨dir, blksz, fs, hinit⟩ := hb
  obtain ⟨⟨rv, s₁⟩, -, hinit⟩ := bind_eq_ok.1 hinit
  simp only at hinit
  split at hinit
  · rename_i hrv
    cases hinit
    exact absurd rfl hrv
  · cases hinit
    exact ⟨rfl, rfl⟩

theorem booted_files (hb : Booted s) (key : UInt32) : s.files key = none := (booted_tables hb key).1

/-- **Runs whose blocks are all in their tables**: every position stays in its table, and so does every index of the
next FILE or END that is in its table; the next message to be handled keeps the positions exactly when it is. -/
theorem run_in_table {s₀ : State} {es : List Event} (hb : Booted s₀)
    (hrun : Run (fun s e s' => Step s e s' ∧ e.InTable s) s₀ es s) :
    (∀ key c, s.files key = some c → c.nextid ≤ c.cap ∧ c.entries.length = c.cap) ∧
    ∀ h msg, (∀ n, parse msg = .ok (.ok, n) → n.IsBlock → (Event.msg h msg).InTable s →
        receive h s msg ≠ .error .tableIndex) ∧
      ∀ r, receive h s msg = .ok r → (Positions r.st ↔ (Event.msg h msg).InTable s) := by
  obtain ⟨hi, hp⟩ : Inv s ∧ Positions s := by
    refine Run.invariant (I := fun s => Inv s ∧ Positions s) (fun s e s' hi he => ?_) hrun ⟨booted_inv hb, fun g c hg => ?_⟩
    · exact ⟨step_inv hi.1 he.1, step_positions hi.1 hi.2 he.1 he.2⟩
    · rw [booted_files hb] at hg
      cases hg
  refine ⟨fun key c hc => ⟨hp key c hc, (hi.ctx key c hc).length⟩, fun h msg => ⟨fun n hparse hblock ht => ?_, fun r hr => ?_⟩⟩
  · obtain ⟨b, hb, hn⟩ := parse_file hparse hblock
    rw [receive_block hparse hblock]
    exact handleFile_no_tableIndex hi hb hn (ht n hparse hblock)
  · exact receive_positions hi hp hr

/-- A file of two blocks, its second one first: after both, nothing is being received. -/
theorem run_in_table_two : ∃ s₀ s, Booted s₀ ∧ Run (fun s e s' => Step s e s' ∧ e.InTable s) s₀
      [.msg .good (helloBytes 0 2 [0x66] (nftpHash [1, 2])), .msg .good (fileBytes [0x66] 1 [2]),
        .msg .good (fileBytes [0x66] 0 [1])] s ∧
    ∀ key c, s.files key = some c → c.nextid ≤ c.cap ∧ c.entries.length = c.cap := by
  obtain ⟨s₀, s, hb, hrun, -⟩ := trace_sound (fun s e => e.InTable s) none 1 .empty
    [.msg .good (helloBytes 0 2 [0x66] (nftpHash [1, 2])), .msg .good (fileBytes [0x66] 1 [2]),
      .msg .good (fileBytes [0x66] 0 [1])] (fun _ => True) (by decide +kernel)
  exact ⟨s₀, s, hb, hrun, (run_in_table hb hrun).1⟩

/-- A HELLO that announces one block, then block 5: the table has one entry.  A HELLO that announces none, then block 0:
the position passes the end of the table. -/
theorem block_outside_table :
    (∃ s₀ s, Booted s₀ ∧ Run Step s₀ [.msg .good (helloBytes 0 1 [0x66] 0)] s ∧
      receive .good s (fileBytes [0x66] 5 [1]) = .error .tableIndex) ∧
    ∃ s₀ s, Booted s₀ ∧ Run Step s₀ [.msg .good (helloBytes 0 0 [0x66] 0), .msg .good (fileBytes [0x66] 0 [1])] s ∧
      ∃ c, s.files (nftpHash [0x66]) = some c ∧ ¬ c.nextid ≤ c.cap := by
  constructor
  · exact trace_run none 1 .empty [.msg .good (helloBytes 0 1 [0x66] 0)]
      (fun s => receive .good s (fileBytes [0x66] 5 [1]) = .error .tableIndex) (by decide +kernel)
  · exact trace_run none 1 .empty [.msg .good (helloBytes 0 0 [0x66] 0), .msg .good (fileBytes [0x66] 0 [1])]
      (fun s => ∃ c, s.files (nftpHash [0x66]) = some c ∧ ¬ c.nextid ≤ c.cap) (by decide +kernel)

end Nftp
