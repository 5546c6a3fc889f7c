import Nftp.Delivery
/-!
# Failure — appends that fail

An append may fail at the block that is next or anywhere in the drain behind it.  `Transfer.Loose` is what every failure
keeps, provided a failed append adds no byte and none that returns 0 loses any: the part file holds what comes before the
position, and behind the position the cache is right wherever it is filled.  At the position itself it may hold the block
the drain could not append, which no later call reads: the block has to be sent again.  `append_lost` is what happens
otherwise, since `nftp_file_append` drops the result of `fclose`.
-/
namespace Nftp

open Lib

variable {h : Host} {s s' s₁ : State} {n : Packet} {msg : Bytes} {r : Ret} {c c' : Nctx} {t : Transfer} {hashcode : UInt32}

/-- The context `c` stands for the transfer, announced with this hash, some blocks of it received. -/
structure Transfer.Loose (t : Transfer) (hashcode : UInt32) (s : State) (c : Nctx) : Prop where
  files : s.files t.fileid = some c
  cap : c.cap = t.blocks.length
  next : c.nextid < t.blocks.length
  wfname : c.wfname = t.wfname
  fcb : c.fcb = some t.fcb
  hashcode : c.hashcode = hashcode
  cache : ∀ k e b, c.nextid + 1 ≤ k → c.entries[k]? = some e → e.body = some b → t.blocks[k]? = some b
  part : s.fs.disk (s.part t.wfname) = some (t.blocks.take c.nextid).flatten
  fits : NameFits s.recvdir t.wfname
  heap : s.heap t.fcb = some t.record
  name : t.record.fname = star ∨ nftpHash t.record.fname = t.fileid

/-- The context need not be sent block `k` again: it is in the part file, or cached behind the position. -/
def Nctx.InHand (c : Nctx) (k : ℕ) : Prop :=
  k < c.nextid ∨ c.nextid < k ∧ ∃ b l, c.entries[k]? = some ⟨some b, l⟩

/-! ## A block of the file -/

/-- What storing block `k` makes of the context and of the disk, whether its appends succeed or not. -/
structure Transfer.Stored (t : Transfer) (h : Host) (s : State) (c : Nctx) (k : ℕ) (rv : Rv) (c' : Nctx) (fs' : Fs) :
    Prop where
  same : c.Same c'
  le : c.nextid ≤ c'.nextid
  le_cap : c'.nextid ≤ t.blocks.length
  failed : rv ≠ .ok → c'.nextid < t.blocks.length
  ok : AllFull h (t.blocks.getD k [] :: c.run) → rv = .ok
  cache : ∀ i e b, c'.nextid + 1 ≤ i → c'.entries[i]? = some e → e.body = some b → t.blocks[i]? = some b
  part : fs'.disk (s.part t.wfname) = some (t.blocks.take c'.nextid).flatten
  inHand : rv = .ok → c'.InHand k ∧ ∀ i, c.InHand i → c'.InHand i

theorem Transfer.Loose.store_next (hh : t.Loose hashcode s c) (hw : c.Wf) {b : Bytes} (hseq : n.blockseq.toNat = c.nextid)
    (hb : n.content = some b) (hn : b.length = n.ctlen) (hblk : t.blocks[c.nextid]? = some b)
    (hclean : Clean h (b :: c.run)) : ∃ rv c' fs', storeBlock h (s.part t.wfname) c s.fs n = .ok (rv, c', fs') ∧
      t.Stored h s c c.nextid rv c' fs' := by
  obtain ⟨j, rv, fs', hstore, happ⟩ := storeBlock_next h (s.part t.wfname) hw hseq hb hn (by rw [hh.part]; rfl)
  have hrun : b :: c.run = (t.blocks.drop c.nextid).take (c.run.length + 1) := by
    obtain ⟨hlt, rfl⟩ := List.getElem?_eq_some_iff.1 hblk
    rw [List.drop_eq_getElem_cons hlt, List.take_succ_cons]
    exact congrArg _ (cachedRun_of_blocks hh.cache)
  have hlen : c.run.length ≤ t.blocks.length - (c.nextid + 1) := by
    rw [← hh.cap, ← hw.length]
    exact cachedRun_length c.entries (c.nextid + 1)
  have hnext := hh.next
  have hj := happ.le
  have hok := happ.ok_iff
  rw [List.length_cons] at hj hok
  have hgetD : t.blocks.getD c.nextid [] = b := by rw [List.getD_eq_getElem?_getD, hblk]; rfl
  refine ⟨rv, c.appended j rv, fs', hstore, appended_same c j rv, ?_, ?_, fun hrv => ?_, fun hall => ?_, ?_, ?_, fun hrv => ?_⟩
  · rw [appended_nextid]
    exact Nat.le_add_right ..
  · rw [appended_nextid]
    omega
  · have hne : j ≠ c.run.length + 1 := fun he => hrv (hok.2 he)
    rw [appended_nextid]
    omega
  · rw [hgetD] at hall
    exact happ.ok_iff_took.2 hall.took
  · intro i e b' hi he hb'
    rw [appended_nextid] at hi
    rw [appended_entries rv (by omega)] at he
    exact hh.cache i e b' (by omega) he hb'
  · rw [happ.clean hclean hh.part, appended_nextid, hrun, List.take_take, Nat.min_eq_left hj, List.take_add,
      List.flatten_append]
  · replace hok := hok.1 hrv
    refine ⟨.inl (by rw [appended_nextid]; omega), fun i hi => ?_⟩
    unfold Nctx.InHand
    rw [appended_nextid]
    by_cases hlt : i < c.nextid + j
    · exact .inl hlt
    rcases hi with hi | ⟨-, b', l, he⟩
    · exact absurd (Nat.lt_of_lt_of_le hi (Nat.le_add_right ..)) hlt
    · -- the run ends where nothing is cached
      have hend := (cachedRun_spec c.entries c.entries.length (c.nextid + 1) (by omega)).2 b' l
      have hne : i ≠ c.nextid + j := by
        rintro rfl
        rw [hok, show c.nextid + (c.run.length + 1) = c.nextid + 1 + c.run.length by omega] at he
        exact hend he
      exact .inr ⟨by omega, b', l, by rw [appended_entries rv (by omega)]; exact he⟩

theorem Transfer.Loose.store_cache (hh : t.Loose hashcode s c) (hw : c.Wf) {k : ℕ} {b : Bytes}
    (hseq : n.blockseq.toNat = k) (hne : k ≠ c.nextid) (hb : n.content = some b) (hblk : t.blocks[k]? = some b) :
    ∃ rv c' fs', storeBlock h (s.part t.wfname) c s.fs n = .ok (rv, c', fs') ∧ t.Stored h s c k rv c' fs' := by
  subst hseq
  have hk : n.blockseq.toNat < t.blocks.length := (List.getElem?_eq_some_iff.1 hblk).1
  have hlt : n.blockseq.toNat < c.entries.length := by rw [hw.length, hh.cap]; exact hk
  have hset : ∀ e i, (c.cached n e).entries[i]? = if n.blockseq.toNat = i then some ⟨some b, n.ctlen⟩ else c.entries[i]? := by
    intro e i
    rw [cached_entries hlt, hb]
  refine ⟨_, _, _, storeBlock_cache h _ s.fs hne (List.getElem?_eq_getElem hlt), ⟨rfl, rfl, rfl, rfl, rfl⟩, Nat.le_refl _,
    Nat.le_of_lt hh.next, fun hrv => absurd rfl hrv, fun _ => rfl, ?_, hh.part, fun _ => ⟨?_, fun i hi => ?_⟩⟩
  · intro i e b' hi he hb'
    rw [hset] at he
    by_cases hki : n.blockseq.toNat = i
    · rw [if_pos hki] at he
      cases he
      cases hb'
      rw [← hki]
      exact hblk
    · rw [if_neg hki] at he
      exact hh.cache i e b' hi he hb'
  · rcases Nat.lt_or_gt_of_ne hne with hlt' | hgt
    · exact .inl hlt'
    · exact .inr ⟨hgt, b, n.ctlen, (hset _ _).trans (if_pos rfl)⟩
  · refine hi.imp_right fun ⟨hgt, b', l, he⟩ => ⟨hgt, ?_⟩
    by_cases hki : n.blockseq.toNat = i
    · exact ⟨b, n.ctlen, (hset _ i).trans (if_pos hki)⟩
    · exact ⟨b', l, (hset _ i).trans ((if_neg hki).trans he)⟩

theorem handleFile_stop {rv : Rv} {fs' : Fs} (hc : s.files n.fileid = some c) (hfits : NameFits s.recvdir c.wfname)
    (hstore : storeBlock h (s.part c.wfname) c s.fs n = .ok (rv, c', fs')) (hrv : rv ≠ .ok) :
    handleFile h s n = State.ret { s with files := Function.update s.files n.fileid (some c'), fs := fs' } rv := by
  unfold handleFile
  simp only [hc, partPath_ok hfits, bind_ok, hstore, ne_eq, hrv, not_false_eq_true, if_true]

/-- **A block of the file, its appends failing or not**: either the transfer goes on, with no byte lost or added twice,
or every block is in the part file and the transfer is about to end. -/
theorem Transfer.Loose.block (hi : Inv s) (hh : t.Loose hashcode s c) {k : ℕ} (hmsg : BlockOf t.fileid t.blocks k msg)
    (hclean : Clean h (t.blocks.getD k [] :: c.run)) :
    (∃ rv s' c', receive h s msg = .ok ⟨rv, none, 0, s'⟩ ∧ t.Loose hashcode s' c' ∧ c.nextid ≤ c'.nextid ∧
        s'.calls = s.calls ∧ (AllFull h (t.blocks.getD k [] :: c.run) → rv = .ok) ∧
        (rv = .ok → c'.InHand k ∧ ∀ i, c.InHand i → c'.InHand i)) ∨
    ∃ n c' fs', receive h s msg = handleFile h s n ∧ n.fileid = t.fileid ∧
      storeBlock h (s.part c.wfname) c s.fs n = .ok (.ok, c', fs') ∧ c.Same c' ∧ c'.nextid = c'.cap ∧
      fs'.disk (s.part t.wfname) = some t.blocks.flatten := by
  obtain ⟨hk, n, hp, hblock, hid, hseq, hblk⟩ := hmsg
  obtain ⟨b, hb, hn⟩ := parse_file hp hblock
  have hw := (hi.ctx _ c hh.files).toWf
  have hkb : t.blocks[k]? = some b := hblk.symm.trans hb
  obtain ⟨rv, c', fs', hstore, hst⟩ : ∃ rv c' fs', storeBlock h (s.part t.wfname) c s.fs n = .ok (rv, c', fs') ∧
      t.Stored h s c k rv c' fs' := by
    by_cases hkc : k = c.nextid
    · subst hkc
      have hgetD : t.blocks.getD c.nextid [] = b := by rw [List.getD_eq_getElem?_getD, hkb]; rfl
      rw [hgetD] at hclean
      exact hh.store_next hw hseq hb hn hkb hclean
    · exact hh.store_cache hw hseq hkc hb hkb
  have hfiles : s.files n.fileid = some c := by rw [hid]; exact hh.files
  have hfits : NameFits s.recvdir c.wfname := by rw [hh.wfname]; exact hh.fits
  rw [← hh.wfname] at hstore
  have hcap : c'.cap = t.blocks.length := hst.same.cap.trans hh.cap
  have hloose : c'.nextid < t.blocks.length →
      t.Loose hashcode { s with files := Function.update s.files n.fileid (some c'), fs := fs' } c' := by
    intro hlt
    refine ⟨by rw [hid]; exact Function.update_self .., hcap, hlt, hst.same.wfname.trans hh.wfname,
      hst.same.fcb.trans hh.fcb, hst.same.hashcode.trans hh.hashcode, hst.cache, hst.part, hh.fits, hh.heap, hh.name⟩
  rw [receive_block hp hblock]
  by_cases hrv : rv = .ok
  · subst hrv
    by_cases hend : c'.nextid = c'.cap
    · refine .inr ⟨n, c', fs', rfl, hid, hstore, hst.same, hend, ?_⟩
      rw [hst.part, hend, hcap, List.take_length]
    · have hlt : c'.nextid < t.blocks.length := Nat.lt_of_le_of_ne hst.le_cap (by rw [← hcap]; exact hend)
      refine .inl ⟨.ok, _, c', ?_, hloose hlt, hst.le, rfl, hst.ok, hst.inHand⟩
      rw [handleFile_run hfiles hfits hstore, if_neg hend]
      rfl
  · exact .inl ⟨rv, _, c', handleFile_stop hfiles hfits hstore hrv, hloose (hst.failed hrv), hst.le, rfl, hst.ok, hst.inHand⟩

theorem Transfer.Loose.aside (hh : t.Loose hashcode s c) (ha : Aside s t s') : t.Loose hashcode s' c where
  files := ha.files.trans hh.files
  cap := hh.cap
  next := hh.next
  wfname := hh.wfname
  fcb := hh.fcb
  hashcode := hh.hashcode
  cache := hh.cache
  part := by rw [part_congr ha.recvdir]; exact ha.part.trans hh.part
  fits := by rw [ha.recvdir]; exact hh.fits
  heap := ha.heap hh.heap hh.name
  name := hh.name

/-- An accepted HELLO leaves a context that stands for a transfer of any file with its number of blocks. -/
theorem hello_loose (hi : Inv s) (hp : parse msg = .ok (.ok, n)) (ht : MsgType.ofCode n.type = some .hello)
    (hr : receive h s msg = .ok r) (hrv : r.rv = .ok) : ∃ w a rcd c, ∀ blocks : List Bytes, 0 < blocks.length →
      n.blocks.toNat = blocks.length → Transfer.Loose ⟨nftpHash n.name, w, a, rcd, blocks⟩ n.hashcode r.st c := by
  obtain ⟨-, -, -, w, a, rcd, -, hfits, -, hname, hdir, hfiles, hfs, hheap⟩ := hello_started hi hp ht hr hrv
  refine ⟨w, a, rcd, helloCtx n a w, fun blocks hpos hN => ?_⟩
  refine ⟨by rw [hfiles]; exact Function.update_self .., hN, hpos, rfl, rfl, rfl, ?_, ?_, hfits, hheap, ?_⟩
  · intro k e b _ he hb
    rw [helloCtx_empty he] at hb
    cases hb
  · rw [part_congr hdir, hfs]
    exact created_self ..
  · rcases hname with h' | h'
    · exact .inr (by rw [h'])
    · exact .inl h'

/-! ## Runs -/

/-- The message handled from `s` is block `k` of the transfer's file, the C library answering as `ok` says of it and of the
run of cached blocks behind it; or one of another transfer, whatever the C library answers it. -/
def Transfer.ArrivesWith (t : Transfer) (ok : Host → List Bytes → Prop) (s : State) (x : Option ℕ) (s' : State) : Prop :=
  ∃ h msg r, receive h s msg = .ok r ∧ r.st = s' ∧
    match x with
    | some k => BlockOf t.fileid t.blocks k msg ∧ ∀ c, s.files t.fileid = some c → ok h (t.blocks.getD k [] :: c.run)
    | none => OtherThan s t.fileid t.wfname msg

/-- Only appends fail, those that do add no byte, and those that return 0 lose none. -/
def Host.AppendsFail (h : Host) (bs : List Bytes) : Prop := h.rename = true ∧ h.hash = .done ∧ Clean h bs

def Host.Succeeds (h : Host) (bs : List Bytes) : Prop := h.rename = true ∧ h.hash = .done ∧ AllFull h bs

theorem Host.Succeeds.appendsFail {bs : List Bytes} (hs : h.Succeeds bs) : h.AppendsFail bs := ⟨hs.1, hs.2.1, hs.2.2.clean⟩

/-- The calls of the transfer's callback. -/
def Transfer.callsIn (t : Transfer) (s : State) : List Call := s.calls.filter (·.fileid = t.fileid)

/-- What is known of the transfer in a run from `s₁` that started with the position at `m`, once the blocks in `D` were
handled without a failure. -/
def Transfer.Since (t : Transfer) (s₁ : State) (m : ℕ) (D : Finset ℕ) (s : State) : Prop :=
  Inv s ∧
    ((∃ c, t.Loose (nftpHash t.blocks.flatten) s c ∧ m ≤ c.nextid ∧ (∀ k ∈ D, c.InHand k) ∧ t.callsIn s = t.callsIn s₁) ∨
      t.Done s ∧ t.callsIn s = t.callsIn s₁ ++ callOf t.fileid t.record)

/-- A block that is handled leaves the transfer going on or over. -/
theorem Transfer.Loose.arrives (hi : Inv s) (hh : t.Loose (nftpHash t.blocks.flatten) s c) {k : ℕ}
    (hmsg : BlockOf t.fileid t.blocks k msg) (hans : h.AppendsFail (t.blocks.getD k [] :: c.run)) :
    ∃ r, receive h s msg = .ok r ∧
      ((∃ c', t.Loose (nftpHash t.blocks.flatten) r.st c' ∧ c.nextid ≤ c'.nextid ∧ r.st.calls = s.calls ∧
          (h.Succeeds (t.blocks.getD k [] :: c.run) → c'.InHand k ∧ ∀ i, c.InHand i → c'.InHand i)) ∨
        t.Done r.st ∧ r.st.calls = s.calls ++ callOf t.fileid t.record) := by
  obtain ⟨hren, hhash, hclean⟩ := hans
  rcases hh.block hi hmsg hclean with ⟨rv, s', c', hr, hh', hle, hcalls, hok, hin⟩ |
    ⟨n, c', fs', hr, hid, hstore, hsame, hcap, hpart⟩
  · exact ⟨_, hr, .inl ⟨c', hh', hle, hcalls, fun hall => hin (hok hall.2.2)⟩⟩
  · have hpass : h.hash.Passes t.blocks.flatten c.hashcode := by
      rw [hhash, hh.hashcode]
      exact passes_good rfl
    obtain ⟨s', hrun, hd, hcalls⟩ := Transfer.finishes hi (by rw [hid]; exact hh.files) hid hh.wfname hh.fits hstore hsame
      hcap hpart hpass hren hh.fcb hh.heap
    exact ⟨_, hr.trans hrun, .inr ⟨hd, hcalls⟩⟩

/-- **One arrival**; the blocks that need not be sent again are kept when no append fails. -/
theorem Transfer.Since.step {m : ℕ} {D D' : Finset ℕ} {ok : Host → List Bytes → Prop} {x : Option ℕ}
    (hs : t.Since s₁ m D s) (hx : t.ArrivesWith ok s x s') (hok : ∀ h bs, ok h bs → h.AppendsFail bs)
    (hD : ∀ i ∈ D', (∀ h bs, ok h bs → h.Succeeds bs) ∧ (i ∈ D ∨ x = some i)) : t.Since s₁ m D' s' := by
  obtain ⟨hi, hs⟩ := hs
  obtain ⟨h, msg, r, hr, rfl, hx⟩ := hx
  refine ⟨receive_inv hi hr, ?_⟩
  cases x with
  | none =>
    have ha := receive_aside t hi hx hr
    rcases hs with ⟨c, hh, hm, hin, hcalls⟩ | ⟨hd, hcalls⟩
    · refine .inl ⟨c, hh.aside ha, hm, fun i hiD => hin i ?_, ha.calls.trans hcalls⟩
      exact (hD i hiD).2.resolve_right nofun
    · exact .inr ⟨hd.aside ha, ha.calls.trans hcalls⟩
  | some k =>
    obtain ⟨hmsg, hans⟩ := hx
    rcases hs with ⟨c, hh, hm, hin, hcalls⟩ | ⟨hd, hcalls⟩
    · have hans := hans c hh.files
      obtain ⟨r', hr', hcase⟩ := hh.arrives hi hmsg (hok _ _ hans)
      rw [hr'] at hr
      cases hr
      rcases hcase with ⟨c', hh', hle, hsame, hin'⟩ | ⟨hd, hend⟩
      · refine .inl ⟨c', hh', hm.trans hle, fun i hiD => ?_, ?_⟩
        · obtain ⟨hall, hi' | hi'⟩ := hD i hiD
          · exact (hin' (hall _ _ hans)).2 i (hin i hi')
          · cases hi'
            exact (hin' (hall _ _ hans)).1
        · rw [Transfer.callsIn, hsame]
          exact hcalls
      · refine .inr ⟨hd, ?_⟩
        rw [Transfer.callsIn, hend, List.filter_append, callOf_filter]
        exact congrArg (· ++ callOf t.fileid t.record) hcalls
    · rw [hd.block hmsg] at hr
      cases hr
      exact .inr ⟨hd, hcalls⟩

/-- **From the state on, no failed append loses or duplicates a byte**: while the transfer is being received its part file
is the blocks before the position, a block is always answered, and the blocks from the position on, sent again in any
order with no append failing, complete the file. -/
def Transfer.Survives (t : Transfer) (s₁ : State) : Prop :=
  ∀ xs s, Run (t.ArrivesWith Host.AppendsFail) s₁ xs s →
    (∀ c, s.files t.fileid = some c → c.wfname = t.wfname ∧ c.nextid < t.blocks.length ∧
      s.fs.disk (s.part c.wfname) = some (t.blocks.take c.nextid).flatten) ∧
    (s.files t.fileid = none → t.Done s) ∧
    (∀ (h : Host) msg k, BlockOf t.fileid t.blocks k msg →
      (∀ c, s.files t.fileid = some c → h.AppendsFail (t.blocks.getD k [] :: c.run)) → ∃ r, receive h s msg = .ok r) ∧
    ∀ c ys s', s.files t.fileid = some c → Run (t.ArrivesWith Host.Succeeds) s ys s' →
      (∀ k, c.nextid ≤ k → k < t.blocks.length → some k ∈ ys) →
      t.Done s' ∧ t.callsIn s' = t.callsIn s₁ ++ callOf t.fileid t.record

theorem mem_received {xs : List (Option ℕ)} {k : ℕ} : k ∈ received xs ↔ some k ∈ xs := by simp [received]

theorem Transfer.Loose.survives (hi : Inv s₁) (hh : t.Loose (nftpHash t.blocks.flatten) s₁ c) : t.Survives s₁ := by
  intro xs s hrun
  have hs : t.Since s₁ c.nextid ∅ s := by
    refine Run.invariant (I := t.Since s₁ c.nextid ∅) (fun s e s' hs hx => ?_) hrun ⟨hi, .inl ⟨c, hh, Nat.le_refl _, nofun, rfl⟩⟩
    exact hs.step hx (fun _ _ hc => hc) nofun
  refine ⟨fun c' hc' => ?_, fun hnone => ?_, fun h msg k hmsg hans => ?_, fun c' ys s' hc' hrun' hall => ?_⟩
  · rcases hs.2 with ⟨d, hd, -⟩ | ⟨hd, -⟩
    · rw [hd.files] at hc'
      cases hc'
      exact ⟨hd.wfname, hd.next, by rw [hd.wfname]; exact hd.part⟩
    · rw [hd.files] at hc'
      cases hc'
  · rcases hs.2 with ⟨d, hd, -⟩ | ⟨hd, -⟩
    · rw [hd.files] at hnone
      cases hnone
    · exact hd
  · rcases hs.2 with ⟨d, hd, -⟩ | ⟨hd, -⟩
    · obtain ⟨r, hr, -⟩ := hd.arrives hs.1 hmsg (hans d hd.files)
      exact ⟨r, hr⟩
    · exact ⟨_, hd.block hmsg⟩
  · obtain ⟨hi', hs⟩ := hs
    rcases hs with ⟨d, hd, -, -, hcalls⟩ | ⟨hd, -⟩
    · rw [hd.files] at hc'
      cases hc'
      -- the position never goes back, and where it stands is not in hand
      have hend : t.Since s₁ c'.nextid (received ys) s' := by
        refine Run.history (I := fun ys s => t.Since s₁ c'.nextid (received ys) s)
          ⟨hi', .inl ⟨c', hd, Nat.le_refl _, nofun, hcalls⟩⟩ (fun ys s x s' hs hx => ?_) hrun'
        refine hs.step hx (fun _ _ hc => hc.appendsFail) fun i hi => ⟨fun _ _ hc => hc, ?_⟩
        rw [mem_received, List.mem_append, List.mem_singleton] at hi
        rw [mem_received]
        exact hi.imp_right Eq.symm
      rcases hend.2 with ⟨e, he, hle, hin, -⟩ | hdone
      · have hcon := hin e.nextid (mem_received.2 (hall e.nextid hle he.next))
        rcases hcon with hlt | ⟨hlt, -⟩ <;> exact absurd hlt (Nat.lt_irrefl _)
      · exact hdone
    · rw [hd.files] at hc'
      cases hc'

/-- **A failed append never loses or duplicates data**, in runs where no append that returns 0 loses any. -/
theorem failed_append (blocks : List Bytes) (hl : Live s) (hp : parse msg = .ok (.ok, n))
    (ht : MsgType.ofCode n.type = some .hello) (hpos : 0 < blocks.length) (hN : n.blocks.toNat = blocks.length)
    (hhash : n.hashcode = nftpHash blocks.flatten) (hr : receive h s msg = .ok r) (hrv : r.rv = .ok) :
    ∃ (t : Transfer) (c : Nctx), t.fileid = nftpHash n.name ∧ t.blocks = blocks ∧ r.st.files t.fileid = some c ∧
      c.wfname = t.wfname ∧ t.Survives r.st := by
  obtain ⟨w, a, rcd, c, hall⟩ := hello_loose hl.inv hp ht hr hrv
  have hh := hall blocks hpos hN
  rw [hhash] at hh
  exact ⟨⟨nftpHash n.name, w, a, rcd, blocks⟩, c, rfl, rfl, hh.files, hh.wfname, hh.survives (receive_inv hl.inv hr)⟩

/-- What the C library answers when the second append of the call cannot open the part file. -/
def Host.failsSecond : Host := { Host.good with append := fun k => if k = 1 then .noOpen else .done }

theorem clean_failsSecond (bs : List Bytes) : Clean .failsSecond bs := by
  have hcase : ∀ i sz, (Host.failsSecond.append i).Full sz ∨
      ¬ (Host.failsSecond.append i).Took sz ∧ (Host.failsSecond.append i).AddsNone sz := by
    intro i sz
    show (if i = 1 then WriteAns.noOpen else .done).Full sz ∨ ¬ (if i = 1 then WriteAns.noOpen else .done).Took sz ∧
      (if i = 1 then WriteAns.noOpen else .done).AddsNone sz
    by_cases hi : i = 1
    · rw [if_pos hi]
      exact .inr ⟨fun ht => ht.1 rfl, .inl rfl⟩
    · rw [if_neg hi]
      exact .inl (full_done _)
  refine ⟨fun i b _ hno => ?_, fun i b _ ht => ?_⟩
  · exact ((hcase i b.length).resolve_left fun hf => hno hf.1).2
  · exact (hcase i b.length).resolve_right fun hf => hf.1 ht

/-- A file of three blocks, its second one first: the append of the second one, out of the cache, fails, and the part file
holds the first one. -/
theorem failed_append_three : ∃ (s : State) (r : Ret) (t : Transfer) (s' : State) (c : Nctx), Live s ∧
    receive .good s (helloBytes 7 3 [0x66] (nftpHash [1, 2, 3])) = .ok r ∧ t.blocks = [[1], [2], [3]] ∧ t.Survives r.st ∧
    Run (t.ArrivesWith Host.AppendsFail) r.st [some 1, some 0] s' ∧ s'.files t.fileid = some c ∧ c.nextid = 1 ∧
    s'.fs.disk (s'.part c.wfname) = some [1] := by
  obtain ⟨n, hp, ht, hname, hN, hhash⟩ :=
    parse_helloBytes 7 3 (nftpHash [1, 2, 3]) (show [0x66].length < 2 ^ 16 by decide) rfl
  obtain ⟨s, hl, r, hr, hrv, r₁, hr₁, r₂, hr₂, c, hc, hnext⟩ := trace_live none 1 .empty []
    (fun s => ∃ r, receive .good s (helloBytes 7 3 [0x66] (nftpHash [1, 2, 3])) = .ok r ∧ r.rv = .ok ∧
      ∃ r₁, receive .good r.st (fileBytes [0x66] 1 [2]) = .ok r₁ ∧
      ∃ r₂, receive .failsSecond r₁.st (fileBytes [0x66] 0 [1]) = .ok r₂ ∧
      ∃ c, r₂.st.files (nftpHash [0x66]) = some c ∧ c.nextid = 1) (by decide +kernel)
  obtain ⟨t, -, hid, hblocks, -, -, hsur⟩ :=
    failed_append [[1], [2], [3]] hl hp ht (by decide) (by rw [hN]; rfl) hhash hr hrv
  rw [hname] at hid
  have hblk : ∀ (q : UInt16) (k : ℕ) (b : Bytes), q.toNat = k → t.blocks[k]? = some b → b.length = 1 →
      BlockOf t.fileid t.blocks k (fileBytes [0x66] q b) := by
    intro q k b hk hb hlen
    rw [hid]
    exact blockOf_fileBytes hk hb (by omega)
  have h₁ : t.ArrivesWith Host.AppendsFail r.st (some 1) r₁.st :=
    ⟨.good, _, r₁, hr₁, rfl, hblk 1 1 [2] rfl (by rw [hblocks]; rfl) rfl, fun _ _ => ⟨rfl, rfl, (allFull_good _).clean⟩⟩
  have h₂ : t.ArrivesWith Host.AppendsFail r₁.st (some 0) r₂.st :=
    ⟨.failsSecond, _, r₂, hr₂, rfl, hblk 0 0 [1] rfl (by rw [hblocks]; rfl) rfl,
      fun _ _ => ⟨rfl, rfl, clean_failsSecond _⟩⟩
  have hrun : Run (t.ArrivesWith Host.AppendsFail) r.st ([some 1] ++ [some 0]) r₂.st := .snoc (.single h₁) h₂
  rw [← hid] at hc
  obtain ⟨-, -, hpart⟩ := (hsur _ _ hrun).1 c hc
  rw [hblocks, hnext] at hpart
  exact ⟨s, r, t, r₂.st, c, hl, hr, hblocks, hsur, hrun, hc, hnext, hpart⟩

/-- What the C library answers on a full disk: a block that fits the buffer of the stream is taken, and lost at the close. -/
def Host.diskFull : Host := { Host.good with append := fun _ => .lost 0 }

theorem fails_diskFull (bs : List Bytes) : FailsClean .diskFull bs := fun _ _ _ hno => absurd ⟨nofun, rfl⟩ hno

/-- A file of two blocks on a full disk: the first block is handled with success, and the part file is empty. -/
theorem append_lost : ∃ (s : State) (r r' : Ret) (c : Nctx), Live s ∧
    receive .good s (helloBytes 7 2 [0x66] (nftpHash [1, 2])) = .ok r ∧ r.rv = .ok ∧
    BlockOf (nftpHash [0x66]) [[1], [2]] 0 (fileBytes [0x66] 0 [1]) ∧
    (Host.diskFull.rename = true ∧ Host.diskFull.hash = .done ∧ ∀ bs, FailsClean .diskFull bs) ∧
    receive .diskFull r.st (fileBytes [0x66] 0 [1]) = .ok r' ∧ r'.rv = .ok ∧
    r'.st.files (nftpHash [0x66]) = some c ∧ c.nextid = 1 ∧
    r'.st.fs.disk (r'.st.part c.wfname) ≠ some ([[1], [2]].take c.nextid).flatten := by
  obtain ⟨s, hl, r, hr, hrv, r', hr', hrv', c, hc, hnext, hpart⟩ := trace_live none 1 .empty []
    (fun s => ∃ r, receive .good s (helloBytes 7 2 [0x66] (nftpHash [1, 2])) = .ok r ∧ r.rv = .ok ∧
      ∃ r', receive .diskFull r.st (fileBytes [0x66] 0 [1]) = .ok r' ∧ r'.rv = .ok ∧
      ∃ c, r'.st.files (nftpHash [0x66]) = some c ∧ c.nextid = 1 ∧ r'.st.fs.disk (r'.st.part c.wfname) = some [])
    (by decide +kernel)
  refine ⟨s, r, r', c, hl, hr, hrv, blockOf_fileBytes rfl rfl (by decide), ⟨rfl, rfl, fails_diskFull⟩, hr', hrv', hc, hnext, ?_⟩
  rw [hpart, hnext]
  decide

end Nftp
