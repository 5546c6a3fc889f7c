import Nftp.Delivery
/-!
# Resume — the point a transfer resumes from

What `nftp_proto_recv_status` reports of a transfer, over every run of its blocks: any numbers below the number of blocks,
in any order and any number of times, with other files' messages and calls in between, as long as no append fails.  The
state is paired with the set of the numbers received.
-/
namespace Nftp

open Lib

variable {h : Host} {s s' : State} {n : Packet} {msg : Bytes} {r : Ret} {c : Nctx} {e : Event} {es : List Event}
  {g : UInt32} {N : ℕ} {R : Finset ℕ} {x x' : State × Finset ℕ}

/-! ## Runs of blocks -/

/-- The call is about no file of the id: no HELLO, block or stop of it. -/
def Event.Misses (g : UInt32) : Event → Prop
  | .msg _ m => ∀ n, parse m = .ok (.ok, n) → n.key ≠ some g
  | .recvStop _ fname => nftpHash (fileBname fname) ≠ g
  | _ => True

/-- The call hands over a block of the file of the id. -/
def Event.Brings (g : UInt32) (h : Host) (n : Packet) (e : Event) : Prop :=
  ∃ m, e = .msg h m ∧ parse m = .ok (.ok, n) ∧ n.IsBlock ∧ n.fileid = g

/-- A step in the receiving of `N` blocks under the id: a block with a number below `N`, no append of the call failing,
or a call about other files. -/
def Arrives (g : UInt32) (N : ℕ) (x : State × Finset ℕ) (e : Event) (x' : State × Finset ℕ) : Prop :=
  Step x.1 e x'.1 ∧
    (e.Misses g ∧ x'.2 = x.2 ∨
      ∃ h n, e.Brings g h n ∧ n.blockseq.toNat < N ∧ x'.2 = insert n.blockseq.toNat x.2 ∧
        ∀ c, x.1.files g = some c → c.Appends h x.1.fs.disk (x.1.part c.wfname) n)

/-- A call about other files leaves the context alone. -/
theorem step_misses (hi : Inv s) (hs : Step s e s') (he : e.Misses g) : s'.files g = s.files g := by
  cases e with
  | msg h m =>
    obtain ⟨r, hr, hs⟩ := bind_eq_ok.1 hs
    cases hs
    rcases receive_effect hi hr with hst | ⟨n, key, hp, hkey, heff⟩
    · rw [hst]
    · exact heff.files g fun hg => he n hp (by rw [hkey, hg])
  | register fname cb arg =>
    obtain ⟨-, -, hs', -⟩ := step_register hi.reg hs
    exact congrFun (congrArg State.files hs') g
  | unregister fname =>
    obtain ⟨-, -, hs', -⟩ := step_unregister hi.reg hs
    exact congrFun (congrArg State.files hs') g
  | recvStop h fname =>
    obtain ⟨rv, hr⟩ := step_recvStop hs
    have herase : htErase s.files (nftpHash (fileBname fname)) g = s.files g := Function.update_of_ne (Ne.symm he) _ _
    rcases recvStop_cases hi.reg hr with ⟨-, -, rfl⟩ | ⟨c, -, -, ⟨-, -, rfl⟩ | ⟨-, -, -, -, -, hs', -⟩⟩
    · rfl
    · exact herase
    · exact (congrFun (congrArg State.files hs') g).trans herase
  | maker h fpath t key i => exact congrFun (congrArg State.files (step_maker hs)) g
  | setRecvdir dir => cases hs; rfl
  | setBlocksz blksz => cases hs; rfl
  | disk disk => cases hs; rfl

/-- **A block that does not complete the transfer** leaves its context with the block stored. -/
theorem step_brings (hi : Inv s) (hs : Step s e s') (he : e.Brings g h n) (hk : n.blockseq.toNat < N)
    (hc : s.files g = some c) (ht : c.Tally N R) (happ : c.Appends h s.fs.disk (s.part c.wfname) n)
    (hmore : insert n.blockseq.toNat R ≠ Finset.range N) :
    s'.files g = some (c.storing n) ∧ (c.storing n).Tally N (insert n.blockseq.toNat R) := by
  obtain ⟨m, rfl, hp, hblock, rfl⟩ := he
  obtain ⟨b, hb, hn⟩ := parse_file hp hblock
  obtain ⟨r, hr, hs⟩ := bind_eq_ok.1 hs
  cases hs
  have hw := (hi.ctx _ c hc).toWf
  have ht' := ht.storing hw hb hk
  refine ⟨?_, ht'⟩
  obtain ⟨fs', hstore⟩ := storeBlock_storing hw hb hn (by rw [ht.cap]; exact hk) happ
  rw [receive_block hp hblock] at hr
  rcases handleFile_cases hr with ⟨hnone, -⟩ | ⟨c₀, path, rv, c', fs₁, hc₀, hpath, hstore', hcase⟩
  · rw [hc] at hnone
    cases hnone
  · rw [hc] at hc₀
    cases hc₀
    obtain ⟨rfl, -⟩ := partPath_eq_ok hpath
    rw [hstore] at hstore'
    cases hstore'
    rcases hcase with ⟨-, rfl⟩ | ⟨-, hcap, -⟩
    · exact Function.update_self ..
    · exact absurd (ht'.next_eq_cap.1 hcap) hmore

/-- The blocks received are some of the `N`, and the context stands for them while any is missing. -/
structure Receiving (g : UInt32) (N : ℕ) (x : State × Finset ℕ) : Prop where
  inv : Inv x.1
  sub : x.2 ⊆ Finset.range N
  going : x.2 ≠ Finset.range N → ∃ c, x.1.files g = some c ∧ c.Tally N x.2

theorem insert_ne_range {k : ℕ} (hk : k < N) (hmore : insert k R ≠ Finset.range N) : R ≠ Finset.range N := by
  rintro rfl
  exact hmore (Finset.insert_eq_of_mem (Finset.mem_range.2 hk))

theorem Receiving.step (hx : Receiving g N x) (ha : Arrives g N x e x') : Receiving g N x' := by
  obtain ⟨s, R⟩ := x
  obtain ⟨s', R'⟩ := x'
  obtain ⟨hs, ⟨hmiss, hR⟩ | ⟨h, n, hbrings, hk, hR, happ⟩⟩ := ha
  · obtain rfl : R' = R := hR
    refine ⟨step_inv hx.inv hs, hx.sub, fun hmore => ?_⟩
    obtain ⟨c, hc, ht⟩ := hx.going hmore
    exact ⟨c, (step_misses hx.inv hs hmiss).trans hc, ht⟩
  · obtain rfl : R' = insert n.blockseq.toNat R := hR
    refine ⟨step_inv hx.inv hs, Finset.insert_subset (Finset.mem_range.2 hk) hx.sub, fun hmore => ?_⟩
    obtain ⟨c, hc, ht⟩ := hx.going (insert_ne_range hk hmore)
    exact ⟨c.storing n, step_brings hx.inv hs hbrings hk hc ht (happ c hc) hmore⟩

theorem helloCtx_tally (n : Packet) (a : Addr) (w : Bytes) : (helloCtx n a w).Tally n.blocks.toNat ∅ := by
  refine ⟨Finset.empty_subset _, rfl, firstMissing_empty.symm, fun k e _ he => ?_⟩
  rw [helloCtx_empty he]
  exact iff_of_false nofun (Finset.notMem_empty k)

theorem hello_files (hi : Inv s) (hp : parse msg = .ok (.ok, n)) (ht : MsgType.ofCode n.type = some .hello)
    (hr : receive h s msg = .ok r) (hrv : r.rv = .ok) : ∃ a w, r.st.files (nftpHash n.name) = some (helloCtx n a w) := by
  obtain ⟨-, -, -, w, a, rcd, -, -, -, -, -, hfiles, -⟩ := hello_started hi hp ht hr hrv
  exact ⟨a, w, by rw [hfiles, Function.update_self]⟩

/-- An accepted HELLO starts it. -/
theorem hello_receiving (hi : Inv s) (hp : parse msg = .ok (.ok, n)) (ht : MsgType.ofCode n.type = some .hello)
    (hr : receive h s msg = .ok r) (hrv : r.rv = .ok) : Receiving (nftpHash n.name) n.blocks.toNat (r.st, ∅) := by
  obtain ⟨a, w, hc⟩ := hello_files hi hp ht hr hrv
  exact ⟨receive_inv hi hr, Finset.empty_subset _, fun _ => ⟨helloCtx n a w, hc, helloCtx_tally n a w⟩⟩

/-! ## The report -/

theorem protoRecvStatus_some {fname : Bytes} (hc : s.files (nftpHash (fileBname fname)) = some c) :
    protoRecvStatus s fname = (.ok, some c.cap, (c.nextid : ℤ)) := by
  rw [protoRecvStatus, hc]

theorem protoRecvStatus_none {fname : Bytes} (hnone : s.files (nftpHash (fileBname fname)) = none) :
    protoRecvStatus s fname = (.ht, none, -1) := by
  rw [protoRecvStatus, hnone]

/-- **The point to resume from is exact**: while blocks are missing the context stands at the least of them, holds no body
there, and is what is reported for every name of its id; and it is what is reported for the name its HELLO came with, if
no other file is received under the id of that name's last component, exactly when that id is the transfer's own. -/
theorem resume_exact (hl : Live s) (hp : parse msg = .ok (.ok, n)) (ht : MsgType.ofCode n.type = some .hello)
    (hr : receive h s msg = .ok r) (hrv : r.rv = .ok)
    (hrun : Run (Arrives (nftpHash n.name) n.blocks.toNat) (r.st, ∅) es (s', R)) (hmore : R ≠ Finset.range n.blocks.toNat) :
    ∃ c, s'.files (nftpHash n.name) = some c ∧ IsLeast {k | k < n.blocks.toNat ∧ k ∉ R} c.nextid ∧
      (∃ l, c.entries[c.nextid]? = some ⟨none, l⟩) ∧
      (∀ fname, nftpHash (fileBname fname) = nftpHash n.name →
        protoRecvStatus s' fname = (.ok, some n.blocks.toNat, (c.nextid : ℤ))) ∧
      (s'.files (nftpHash (fileBname n.name)) = none ∨ nftpHash (fileBname n.name) = nftpHash n.name →
        (protoRecvStatus s' n.name = (.ok, some n.blocks.toNat, (c.nextid : ℤ)) ↔
          nftpHash (fileBname n.name) = nftpHash n.name)) := by
  have hx : Receiving (nftpHash n.name) n.blocks.toNat (s', R) :=
    hrun.invariant (fun _ _ _ hx ha => hx.step ha) (hello_receiving hl.inv hp ht hr hrv)
  obtain ⟨c, hc, htally⟩ := hx.going hmore
  replace hc : s'.files (nftpHash n.name) = some c := hc
  obtain ⟨hleast, hbody⟩ := htally.position (hx.inv.ctx _ c hc).toWf hmore
  have hreport : ∀ fname, nftpHash (fileBname fname) = nftpHash n.name →
      protoRecvStatus s' fname = (.ok, some n.blocks.toNat, (c.nextid : ℤ)) := by
    intro fname hname
    rw [protoRecvStatus_some (by rw [hname]; exact hc), htally.cap]
  refine ⟨c, hc, hleast, hbody, hreport, fun hother => ⟨fun hrep => ?_, hreport n.name⟩⟩
  rcases hother with hnone | hname
  · rw [protoRecvStatus_none hnone] at hrep
    cases hrep
  · exact hname

/-- The part file of the file of the id, if it is being received, is there. -/
def State.HasPart (s : State) (g : UInt32) : Prop := ∀ c, s.files g = some c → (s.fs.disk (s.part c.wfname)).isSome

instance (s : State) (g : UInt32) : Decidable (s.HasPart g) := inferInstanceAs (Decidable (∀ _, _ → _))

/-- The block of a FILE made by `fileBytes`, its appends answered well. -/
theorem arrives_fileBytes {f b : Bytes} {blockseq : UInt16} (hr : receive .good s (fileBytes f blockseq b) = .ok r)
    (hk : blockseq.toNat < N) (hlen : b.length < 2 ^ 31 - 15) (hpart : s.HasPart (nftpHash f)) :
    Arrives (nftpHash f) N (s, R) (.msg .good (fileBytes f blockseq b)) (r.st, insert blockseq.toNat R) := by
  obtain ⟨n, hp, htype, hid, rfl, -⟩ := parse_fileBytes f blockseq hlen
  refine ⟨bind_eq_ok.2 ⟨r, hr, rfl⟩, .inr ⟨.good, n, ⟨_, rfl, hp, .inl htype, hid⟩, hk, rfl, fun c hc _ => ?_⟩⟩
  exact ⟨hpart c hc, (allFull_good _).took⟩

/-- Three blocks, the last one first: after it and the first one, the second is the one to resume from. -/
theorem resume_exact_second : ∃ s r s' R es, Live s ∧ receive .good s (helloBytes 0 3 [0x66] 0) = .ok r ∧
    Run (Arrives (nftpHash [0x66]) 3) (r.st, ∅) es (s', R) ∧ R = {0, 2} ∧
    protoRecvStatus s' [0x66] = (.ok, some 3, 1) := by
  obtain ⟨n, hp, ht, hname, hN, -⟩ := parse_helloBytes 0 3 0 (show [0x66].length < 2 ^ 16 by decide) rfl
  obtain ⟨s, hl, r, hr, hrv, hpart, r₁, hr₁, hpart₁, r₂, hr₂, -⟩ := trace_live none 1 .empty []
    (fun s => ∃ r, receive .good s (helloBytes 0 3 [0x66] 0) = .ok r ∧ r.rv = .ok ∧
      r.st.HasPart (nftpHash [0x66]) ∧
      ∃ r₁, receive .good r.st (fileBytes [0x66] 2 [3]) = .ok r₁ ∧
      r₁.st.HasPart (nftpHash [0x66]) ∧
      ∃ r₂, receive .good r₁.st (fileBytes [0x66] 0 [1]) = .ok r₂ ∧ True) (by decide +kernel)
  have hblocks : n.blocks.toNat = 3 := by rw [hN]; rfl
  have hrun : Run (Arrives (nftpHash n.name) n.blocks.toNat) (r.st, ∅)
      ([.msg .good (fileBytes [0x66] 2 [3])] ++ [.msg .good (fileBytes [0x66] 0 [1])]) (r₂.st, insert 0 (insert 2 ∅)) := by
    rw [hname, hblocks]
    exact .snoc (.single (arrives_fileBytes hr₁ (by decide) (by decide) hpart))
      (arrives_fileBytes hr₂ (by decide) (by decide) hpart₁)
  have hmore : insert 0 (insert 2 ∅) ≠ Finset.range n.blocks.toNat := by
    rw [hblocks]
    decide
  obtain ⟨c, -, hleast, -, hreport, -⟩ := resume_exact hl hp ht hr hrv hrun hmore
  have hnext : c.nextid = 1 := by
    refine hleast.unique ⟨by rw [hblocks]; decide, fun k hk => ?_⟩
    by_contra hlt
    obtain rfl : k = 0 := by omega
    exact hk.2 (Finset.mem_insert_self ..)
  have hstatus := hreport [0x66] (by rw [hname]; rfl)
  rw [hnext, hblocks] at hstatus
  rw [hname, hblocks] at hrun
  exact ⟨s, r, r₂.st, _, _, hl, hr, hrun, rfl, hstatus⟩

/-- A HELLO with a directory in its name: its transfer, with no block received yet, is not the one the name reports. -/
theorem directory_unreported : ∃ s r, Live s ∧ receive .good s (helloBytes 0 1 [0x64, slash, 0x66] 0) = .ok r ∧
    r.rv = .ok ∧ Run (Arrives (nftpHash [0x64, slash, 0x66]) 1) (r.st, ∅) [] (r.st, ∅) ∧ ∅ ≠ Finset.range 1 ∧
    (r.st.files (nftpHash [0x64, slash, 0x66])).isSome ∧ protoRecvStatus r.st [0x64, slash, 0x66] = (.ht, none, -1) := by
  obtain ⟨s, hl, r, hr, hrv, hsome, hstatus⟩ := trace_live none 1 .empty []
    (fun s => ∃ r, receive .good s (helloBytes 0 1 [0x64, slash, 0x66] 0) = .ok r ∧ r.rv = .ok ∧
      (r.st.files (nftpHash [0x64, slash, 0x66])).isSome ∧
      protoRecvStatus r.st [0x64, slash, 0x66] = (.ht, none, -1)) (by decide +kernel)
  exact ⟨s, r, hl, hr, hrv, .refl, by decide, hsome, hstatus⟩

end Nftp
