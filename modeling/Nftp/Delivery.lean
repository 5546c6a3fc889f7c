import Nftp.Publish
import Nftp.Tally
/-!
# Delivery — a transfer as the set of blocks received

The abstract state of a transfer is the set `R` of the block numbers received; `Transfer.Holds` says how a context, its
part file and its record stand for it.  A block of the file takes `R` to `insert k R`, the block that makes `R` all of
them delivers the file, and messages of other transfers leave `R` alone.
-/
namespace Nftp

open Lib

/-- What stays the same during a transfer: where it is kept, what it is bound to, and the blocks of its file. -/
structure Transfer where
  fileid : UInt32
  wfname : Bytes
  fcb : Addr
  record : FileCb
  blocks : List Bytes

variable {h : Host} {s s' : State} {n : Packet} {msg : Bytes} {r : Ret} {c : Nctx} {t : Transfer} {R : Finset ℕ}

/-- The context `c` stands for the transfer with the blocks in `R` received. -/
structure Transfer.Holds (t : Transfer) (s : State) (R : Finset ℕ) (c : Nctx) : Prop where
  sub : R ⊆ Finset.range t.blocks.length
  files : s.files t.fileid = some c
  cap : c.cap = t.blocks.length
  next : c.nextid = firstMissing R
  wfname : c.wfname = t.wfname
  fcb : c.fcb = some t.fcb
  hashcode : c.hashcode = nftpHash t.blocks.flatten
  /-- behind the position the cache holds what was received -/
  cache : ∀ k e, c.nextid ≤ k → c.entries[k]? = some e → e.body = if k ∈ R then t.blocks[k]? else none
  /-- the part file holds what comes before the position -/
  part : s.fs.disk (s.part t.wfname) = some (t.blocks.take c.nextid).flatten
  fits : NameFits s.recvdir t.wfname
  heap : s.heap t.fcb = some t.record
  name : t.record.fname = star ∨ nftpHash t.record.fname = t.fileid

/-- The transfer is over: the file is there, the part file and the context are not. -/
structure Transfer.Done (t : Transfer) (s : State) : Prop where
  files : s.files t.fileid = none
  final : s.fs.disk (s.final t.wfname) = some t.blocks.flatten
  part : s.fs.disk (s.part t.wfname) = none

/-! ## The run of cached blocks -/

theorem Transfer.Holds.tally (hh : t.Holds s R c) : c.Tally t.blocks.length R := by
  refine ⟨hh.sub, hh.cap, hh.next, fun k e hk he => ?_⟩
  rw [hh.cache k e hk he]
  by_cases hmem : k ∈ R
  · have hlt := Finset.mem_range.1 (hh.sub hmem)
    simp [hmem, hlt]
  · simp [hmem]

/-- **The cached run is the blocks behind the position**, as many as were received in a row. -/
theorem Transfer.Holds.run (hh : t.Holds s R c) : c.run = (t.blocks.drop (c.nextid + 1)).take c.run.length := by
  refine cachedRun_of_blocks fun k e b hle he hb => ?_
  have hc := hh.cache k e (by omega) he
  by_cases hk : k ∈ R
  · rw [if_pos hk, hb] at hc
    exact hc.symm
  · rw [if_neg hk, hb] at hc
    cases hc

/-! ## A block of the file -/

/-- The message is block `k` of the file with these blocks, under this file id. -/
def BlockOf (fileid : UInt32) (blocks : List Bytes) (k : ℕ) (msg : Bytes) : Prop :=
  k < blocks.length ∧ ∃ n, parse msg = .ok (.ok, n) ∧ n.IsBlock ∧ n.fileid = fileid ∧ n.blockseq.toNat = k ∧
    n.content = blocks[k]?

theorem blockOf_fileBytes {f b : Bytes} {blocks : List Bytes} {blockseq : UInt16} {k : ℕ} (hk : blockseq.toNat = k)
    (hb : blocks[k]? = some b) (hlen : b.length < 2 ^ 31 - 15) : BlockOf (nftpHash f) blocks k (fileBytes f blockseq b) := by
  obtain ⟨n, hp, htype, hid, hseq, hc⟩ := parse_fileBytes f blockseq hlen
  exact ⟨(List.getElem?_eq_some_iff.1 hb).1, n, hp, .inl htype, hid, by rw [hseq]; exact hk, hc.trans hb.symm⟩

theorem passes_good {content : Bytes} {hashcode : UInt32} (hh : nftpHash content = hashcode) :
    Host.good.hash.Passes content hashcode := by
  refine ⟨nofun, fun h' => ?_, hh⟩
  cases h'.1

theorem allFull_good (bs : List Bytes) : AllFull .good bs := fun _ _ => full_done _

theorem Transfer.Holds.store_next (hh : t.Holds s R c) (hw : c.Wf) {b : Bytes} (hseq : n.blockseq.toNat = c.nextid)
    (hb : n.content = some b) (hn : b.length = n.ctlen) (hblk : t.blocks[c.nextid]? = some b) :
    ∃ c' fs', storeBlock .good (s.part t.wfname) c s.fs n = .ok (.ok, c', fs') ∧
      t.Holds { s with files := Function.update s.files t.fileid (some c'), fs := fs' } (insert c.nextid R) c' := by
  have hrun := hh.run
  obtain ⟨j, rv, fs', hstore, happ⟩ := storeBlock_next .good (s.part t.wfname) hw hseq hb hn (by rw [hh.part]; rfl)
  have hrv : rv = .ok := happ.ok_iff_took.2 (allFull_good _).took
  subst hrv
  have hj := happ.ok_iff.1 rfl
  rw [List.length_cons] at hj
  subst hj
  have hpart := happ.clean (allFull_good _).clean hh.part
  rw [← List.length_cons (a := b), List.take_length, List.flatten_cons] at hpart
  have hlt : c.nextid < t.blocks.length := (List.getElem?_eq_some_iff.1 hblk).1
  have ht := hh.tally.appended hw hlt
  refine ⟨c.appended (c.run.length + 1) .ok, fs', hstore, ?_⟩
  refine ⟨ht.sub, Function.update_self .., hh.cap, ht.next, hh.wfname, hh.fcb, hh.hashcode, ?_, ?_, hh.fits, hh.heap, hh.name⟩
  · intro k e hk he
    replace hk : c.nextid + 1 + c.run.length ≤ k := hk
    replace he : (emptied c.entries (c.nextid + 1) c.run.length)[k]? = some e := he
    rw [emptied_getElem?, if_neg (by omega)] at he
    have hiff : k ∈ insert c.nextid R ↔ k ∈ R := by
      rw [Finset.mem_insert, or_iff_right]
      omega
    rw [hh.cache k e (by omega) he]
    simp only [hiff]
  · show fs'.disk (s.part t.wfname) = some (t.blocks.take (c.nextid + 1 + c.run.length)).flatten
    rw [hpart, List.take_add, ← hrun, List.take_add_one, hblk, List.flatten_append, List.flatten_append]
    simp

theorem Transfer.Holds.store_cache (hh : t.Holds s R c) (hw : c.Wf) {k : ℕ} (hseq : n.blockseq.toNat = k)
    (hk : k < t.blocks.length) (hne : k ≠ c.nextid) (hblk : n.content = t.blocks[k]?) :
    ∃ c', storeBlock .good (s.part t.wfname) c s.fs n = .ok (.ok, c', s.fs) ∧
      t.Holds { s with files := Function.update s.files t.fileid (some c') } (insert k R) c' := by
  subst hseq
  have hlt : n.blockseq.toNat < c.entries.length := by rw [hw.length, hh.cap]; exact hk
  have ht := hh.tally.cached hw (hblk.trans (List.getElem?_eq_getElem hk)) hk hne c.entries[n.blockseq.toNat]
  refine ⟨_, storeBlock_cache .good _ s.fs hne (List.getElem?_eq_getElem hlt), ?_⟩
  refine ⟨ht.sub, Function.update_self .., hh.cap, ht.next, hh.wfname, hh.fcb, hh.hashcode, ?_, hh.part, hh.fits, hh.heap, hh.name⟩
  intro k e hk' he
  rw [cached_entries hlt] at he
  by_cases hkk : n.blockseq.toNat = k
  · rw [if_pos hkk] at he
    cases he
    rw [if_pos (by rw [hkk]; exact Finset.mem_insert_self ..), hblk, hkk]
  · rw [if_neg hkk] at he
    have hiff : k ∈ insert n.blockseq.toNat R ↔ k ∈ R := by
      rw [Finset.mem_insert, or_iff_right (Ne.symm hkk)]
    rw [hh.cache k e hk' he]
    simp only [hiff]

/-- The handling of a block for a context whose paths fit, up to the end of the transfer. -/
theorem handleFile_run {c' : Nctx} {fs' : Fs} (hc : s.files n.fileid = some c) (hfits : NameFits s.recvdir c.wfname)
    (hstore : storeBlock h (s.part c.wfname) c s.fs n = .ok (.ok, c', fs')) :
    handleFile h s n =
      if c'.nextid = c'.cap then
        finish h { s with files := Function.update s.files n.fileid (some c'), fs := fs' } c' (s.part c.wfname)
      else State.ret { s with files := Function.update s.files n.fileid (some c'), fs := fs' } .ok := by
  unfold handleFile
  simp only [hc, partPath_ok hfits, bind_ok, hstore, ne_eq, not_true_eq_false, if_false]

/-- **A transfer whose check passes ends well**: the file is published, the callback runs, the context goes. -/
theorem finish_ok {content : Bytes} {a : Addr} {rcd : FileCb} (hreg : RegOk s) (hfits : NameFits s.recvdir c.wfname)
    (hd : s.fs.disk (s.part c.wfname) = some content) (hren : h.rename = true) (hpass : h.hash.Passes content c.hashcode)
    (ha : c.fcb = some a) (hrcd : s.heap a = some rcd) : ∃ s₁, finish h s c (s.part c.wfname) =
        .ok ⟨.ok, some c.wfname, cInt c.wfname.length, { s₁ with files := htErase s.files c.fileid }⟩ ∧
      s₁ = { s.withReg s₁ with
        fs := s.fs.renamed (s.part c.wfname) (s.final c.wfname) content, calls := s.calls ++ callOf c.fileid rcd } := by
  have hreg' : RegOk { s with fs := s.fs.renamed (s.part c.wfname) (s.final c.wfname) content } := hreg.of_eq rfl rfl rfl
  rcases runCb_spec hreg' ha with ⟨hnone, -⟩ | ⟨rcd', s₁, hrcd', hrun, -, -, hs₁, -⟩
  · replace hnone : s.heap a = none := hnone
    rw [hrcd] at hnone
    cases hnone
  replace hrcd' : s.heap a = some rcd' := hrcd'
  rw [hrcd] at hrcd'
  cases hrcd'
  refine ⟨s₁, ?_, hs₁⟩
  unfold finish
  obtain ⟨ho, hs, hh⟩ := hpass
  have hd2 := renamed_dst s.fs (s.part c.wfname) (s.final c.wfname) content
  have hfiles : s₁.files = s.files := (congrArg State.files hs₁).trans rfl
  simp only [hfits.final, bind_ok, fileRename_eq, hd, hren, Bool.true_eq_false, if_false, ne_eq, not_true_eq_false,
    fileHash_eq h.hash hd2, if_neg ho, if_neg hs, hh, hrun, hfiles, pure_ok]

/-- **The block that completes a transfer**, the file received passing its check: the file is delivered, the callback
runs, and the transfer is over. -/
theorem Transfer.finishes {c' : Nctx} {fs' : Fs} (hi : Inv s) (hc : s.files n.fileid = some c)
    (hid : n.fileid = t.fileid) (hw : c.wfname = t.wfname) (hfits : NameFits s.recvdir t.wfname)
    (hstore : storeBlock h (s.part c.wfname) c s.fs n = .ok (.ok, c', fs')) (hsame : c.Same c')
    (hcap : c'.nextid = c'.cap) (hpart : fs'.disk (s.part t.wfname) = some t.blocks.flatten)
    (hpass : h.hash.Passes t.blocks.flatten c.hashcode) (hren : h.rename = true) (hfcb : c.fcb = some t.fcb)
    (hheap : s.heap t.fcb = some t.record) : ∃ s',
      handleFile h s n = .ok ⟨.ok, some t.wfname, cInt t.wfname.length, s'⟩ ∧
      t.Done s' ∧ s'.calls = s.calls ++ callOf t.fileid t.record := by
  have hw' : c'.wfname = t.wfname := hsame.wfname.trans hw
  have hid' : c'.fileid = t.fileid := (hsame.fileid.trans (hi.ctx _ c hc).fileid).trans hid
  have hreg : RegOk { s with files := Function.update s.files n.fileid (some c'), fs := fs' } := hi.reg.of_eq rfl rfl rfl
  obtain ⟨s₁, hfin, hs₁⟩ := finish_ok hreg (by rw [hw']; exact hfits) (by rw [hw']; exact hpart) hren
    (by rw [hsame.hashcode]; exact hpass) (hsame.fcb.trans hfcb) hheap
  have hfs := congrArg State.fs hs₁
  have hdir : s₁.recvdir = s.recvdir := (congrArg State.recvdir hs₁).trans rfl
  have hfiles : s₁.files = Function.update s.files n.fileid (some c') := (congrArg State.files hs₁).trans rfl
  refine ⟨{ s₁ with files := htErase (Function.update s.files n.fileid (some c')) c'.fileid }, ?_, ⟨?_, ?_, ?_⟩, ?_⟩
  · replace hfin : finish h _ c' (s.part c'.wfname) = _ := hfin
    rw [handleFile_run hc (by rw [hw]; exact hfits) hstore, if_pos hcap, hw, ← hw', hfin]
  · rw [← hid']
    exact Function.update_self ..
  · show s₁.fs.disk (s₁.recvdir.getD [] ++ t.wfname) = _
    rw [hfs, hdir, hw']
    exact renamed_dst ..
  · show s₁.fs.disk (s₁.recvdir.getD [] ++ (t.wfname ++ dotPart)) = _
    rw [hfs, hdir, hw']
    exact renamed_src _ (part_ne_final _ _) _
  · show s₁.calls = _
    rw [congrArg State.calls hs₁, hid']

theorem Transfer.Holds.store (hh : t.Holds s R c) (hw : c.Wf) {k : ℕ} (hseq : n.blockseq.toNat = k)
    (hk : k < t.blocks.length) (hblk : n.content = t.blocks[k]?) {b : Bytes} (hb : n.content = some b)
    (hn : b.length = n.ctlen) : ∃ c' fs', storeBlock .good (s.part c.wfname) c s.fs n = .ok (.ok, c', fs') ∧
      t.Holds { s with files := Function.update s.files t.fileid (some c'), fs := fs' } (insert k R) c' := by
  rw [hh.wfname]
  by_cases hkc : k = c.nextid
  · subst hkc
    exact hh.store_next hw hseq hb hn (by rw [← hblk]; exact hb)
  · obtain ⟨c', hstore, hh'⟩ := hh.store_cache hw hseq hk hkc hblk
    exact ⟨c', s.fs, hstore, hh'⟩

/-- **A block of the file, while others are missing**: the call answers 0 and nothing else. -/
theorem Transfer.Holds.block (hi : Inv s) (hh : t.Holds s R c) {k : ℕ} (hmsg : BlockOf t.fileid t.blocks k msg)
    (hmore : insert k R ≠ Finset.range t.blocks.length) : ∃ s' c', receive .good s msg = .ok ⟨.ok, none, 0, s'⟩ ∧
      t.Holds s' (insert k R) c' ∧ s'.calls = s.calls := by
  obtain ⟨hk, n, hp, hblock, hid, hseq, hblk⟩ := hmsg
  obtain ⟨b, hb, hn⟩ := parse_file hp hblock
  have hw := (hi.ctx _ c hh.files).toWf
  obtain ⟨c', fs', hstore, hh'⟩ := hh.store hw hseq hk hblk hb hn
  refine ⟨_, c', ?_, hh', rfl⟩
  have hlt : c'.nextid ≠ c'.cap := by
    rw [hh'.next, hh'.cap]
    exact fun heq => hmore ((firstMissing_eq_iff_range hh'.sub).1 heq)
  rw [receive_block hp hblock, handleFile_run (by rw [hid]; exact hh.files) (by rw [hh.wfname]; exact hh.fits) hstore,
    if_neg hlt, hid]
  rfl

/-- **The block that was missing last**: the file is delivered, the callback runs, and the transfer is over. -/
theorem Transfer.Holds.last_block (hi : Inv s) (hh : t.Holds s R c) {k : ℕ} (hmsg : BlockOf t.fileid t.blocks k msg)
    (hall : insert k R = Finset.range t.blocks.length) : ∃ s',
      receive .good s msg = .ok ⟨.ok, some t.wfname, cInt t.wfname.length, s'⟩ ∧
      t.Done s' ∧ s'.calls = s.calls ++ callOf t.fileid t.record := by
  obtain ⟨hk, n, hp, hblock, hid, hseq, hblk⟩ := hmsg
  obtain ⟨b, hb, hn⟩ := parse_file hp hblock
  have hw := (hi.ctx _ c hh.files).toWf
  obtain ⟨c', fs', hstore, hh'⟩ := hh.store hw hseq hk hblk hb hn
  obtain ⟨-, hsame, -⟩ := storeBlock_keeps hw hb hn hstore
  have hcap : c'.nextid = t.blocks.length := by rw [hh'.next, hall]; exact (firstMissing_eq_iff_range (by rfl)).2 rfl
  have hpart := hh'.part
  rw [hcap, List.take_length] at hpart
  rw [receive_block hp hblock]
  exact Transfer.finishes hi (by rw [hid]; exact hh.files) hid hh.wfname hh.fits hstore hsame (by rw [hcap, hh'.cap]) hpart
    (passes_good hh.hashcode.symm) rfl hh.fcb hh.heap

/-- **A block after the end** is refused and changes nothing. -/
theorem Transfer.Done.block (hd : t.Done s) {k : ℕ} (hmsg : BlockOf t.fileid t.blocks k msg) :
    receive h s msg = .ok ⟨.ht, none, 0, s⟩ := by
  obtain ⟨-, n, hp, hblock, hid, -⟩ := hmsg
  rw [receive_block hp hblock, handleFile, hid]
  simp only [hd.files, State.ret]

/-! ## A message of another transfer -/

/-- The message concerns no transfer under the file id and no name that shares a file with the name `w`. -/
def OtherThan (s : State) (fileid : UInt32) (w : Bytes) (msg : Bytes) : Prop :=
  ∀ n, parse msg = .ok (.ok, n) → n.key ≠ some fileid ∧ ∀ v, Concerns s n v → FilesApart s v w

structure Aside (s : State) (t : Transfer) (s' : State) : Prop where
  recvdir : s'.recvdir = s.recvdir
  files : s'.files t.fileid = s.files t.fileid
  part : s'.fs.disk (s.part t.wfname) = s.fs.disk (s.part t.wfname)
  final : s'.fs.disk (s.final t.wfname) = s.fs.disk (s.final t.wfname)
  heap : s.heap t.fcb = some t.record → (t.record.fname = star ∨ nftpHash t.record.fname = t.fileid) →
    s'.heap t.fcb = some t.record
  calls : s'.calls.filter (·.fileid = t.fileid) = s.calls.filter (·.fileid = t.fileid)

theorem receive_aside (t : Transfer) (hi : Inv s) (ho : OtherThan s t.fileid t.wfname msg) (hr : receive h s msg = .ok r) :
    Aside s t r.st := by
  rcases receive_effect hi hr with hst | ⟨n, key, hp, hkey, he⟩
  · rw [hst]
    exact ⟨rfl, rfl, rfl, rfl, fun h' _ => h', rfl⟩
  obtain ⟨hne, hap⟩ := ho n hp
  have hkt : key ≠ t.fileid := fun hk => hne (by rw [hkey, hk])
  refine ⟨he.recvdir, he.files _ (Ne.symm hkt), he.disk _ fun w hw => ?_, he.disk _ fun w hw => ?_, fun hrcd hname => ?_, ?_⟩
  · obtain ⟨h1, h2, -, -⟩ := (hap w hw).paths
    exact ⟨h1, h2⟩
  · obtain ⟨-, -, h3, h4⟩ := (hap w hw).paths
    exact ⟨h3, h4⟩
  · rcases he.heap _ _ hrcd with h' | ⟨hns, hk⟩
    · exact h'
    · rcases hname with h' | h'
      · exact absurd h' hns
      · exact absurd (hk.symm.trans h') hkt
  · obtain ⟨cs, hcs, hall⟩ := he.calls
    have hnil : cs.filter (·.fileid = t.fileid) = [] := by
      rw [List.filter_eq_nil_iff]
      intro x hx
      simp only [hall x hx, hkt, decide_false, Bool.false_eq_true, not_false_eq_true]
    rw [hcs, List.filter_append, hnil, List.append_nil]

theorem Transfer.Holds.aside (hh : t.Holds s R c) (ha : Aside s t s') : t.Holds s' R c where
  sub := hh.sub
  files := ha.files.trans hh.files
  cap := hh.cap
  next := hh.next
  wfname := hh.wfname
  fcb := hh.fcb
  hashcode := hh.hashcode
  cache := hh.cache
  part := by rw [part_congr ha.recvdir]; exact ha.part.trans hh.part
  fits := by rw [ha.recvdir]; exact hh.fits
  heap := ha.heap hh.heap hh.name
  name := hh.name

theorem Transfer.Done.aside (hd : t.Done s) (ha : Aside s t s') : t.Done s' where
  files := ha.files.trans hd.files
  final := by rw [final_congr ha.recvdir]; exact ha.final.trans hd.final
  part := by rw [part_congr ha.recvdir]; exact ha.part.trans hd.part

/-! ## Arrivals in any order -/

/-- The message handled from `s` is block `k` of the transfer's file, or one of another transfer, whatever the C library
answers it. -/
def Transfer.Arrives (t : Transfer) (s : State) (x : Option ℕ) (s' : State) : Prop :=
  ∃ h msg r, receive h s msg = .ok r ∧ r.st = s' ∧
    match x with
    | some k => h = .good ∧ BlockOf t.fileid t.blocks k msg
    | none => OtherThan s t.fileid t.wfname msg

def received (xs : List (Option ℕ)) : Finset ℕ := (xs.filterMap id).toFinset

theorem received_own (xs : List (Option ℕ)) (k : ℕ) : received (xs ++ [some k]) = insert k (received xs) := by
  ext i
  simp [received]

theorem received_other (xs : List (Option ℕ)) : received (xs ++ [none]) = received xs := by
  simp [received]

/-- What is known of the transfer after the arrivals `xs` from the state `s₁`. -/
structure Transfer.After (t : Transfer) (s₁ : State) (xs : List (Option ℕ)) (s : State) : Prop where
  inv : Inv s
  sub : received xs ⊆ Finset.range t.blocks.length
  going : received xs ≠ Finset.range t.blocks.length → ∃ c, t.Holds s (received xs) c
  done : received xs = Finset.range t.blocks.length → t.Done s
  /-- the callback ran for the transfer if it is over, and then once -/
  calls : s.calls.filter (·.fileid = t.fileid) = s₁.calls.filter (·.fileid = t.fileid) ++
    if received xs = Finset.range t.blocks.length then callOf t.fileid t.record else []

theorem callOf_filter (fileid : UInt32) (rcd : FileCb) : (callOf fileid rcd).filter (·.fileid = fileid) = callOf fileid rcd := by
  rw [List.filter_eq_self]
  intro x hx
  rw [callOf_fileid hx]
  exact decide_eq_true rfl

theorem Transfer.After.step {s₁ : State} {xs : List (Option ℕ)} {x : Option ℕ} (ha : t.After s₁ xs s)
    (hx : t.Arrives s x s') : t.After s₁ (xs ++ [x]) s' := by
  obtain ⟨h, msg, r, hr, rfl, hx⟩ := hx
  have hi' := receive_inv ha.inv hr
  cases x with
  | none =>
    have haside := receive_aside t ha.inv hx hr
    refine ⟨hi', ?_, ?_, ?_, ?_⟩
    all_goals rw [received_other]
    · exact ha.sub
    · intro hne
      obtain ⟨c, hh⟩ := ha.going hne
      exact ⟨c, hh.aside haside⟩
    · exact fun heq => (ha.done heq).aside haside
    · rw [haside.calls]
      exact ha.calls
  | some k =>
    obtain ⟨rfl, hmsg⟩ := hx
    have hk : k ∈ Finset.range t.blocks.length := Finset.mem_range.2 hmsg.1
    have hsub : insert k (received xs) ⊆ Finset.range t.blocks.length := Finset.insert_subset hk ha.sub
    by_cases hdone : received xs = Finset.range t.blocks.length
    · have hd := ha.done hdone
      rw [hd.block hmsg] at hr
      cases hr
      have hsame : received (xs ++ [some k]) = received xs := by
        rw [received_own, Finset.insert_eq_of_mem (by rw [hdone]; exact hk)]
      exact ⟨hi', by rw [hsame]; exact ha.sub, fun hne => absurd (hsame.trans hdone) hne, fun _ => hd,
        by rw [hsame]; exact ha.calls⟩
    · obtain ⟨c, hh⟩ := ha.going hdone
      have hcalls := ha.calls
      rw [if_neg hdone, List.append_nil] at hcalls
      have hown := received_own xs k
      by_cases hall : insert k (received xs) = Finset.range t.blocks.length
      · obtain ⟨s', hr', hd, hc⟩ := hh.last_block ha.inv hmsg hall
        rw [hr'] at hr
        cases hr
        refine ⟨hi', by rw [hown]; exact hsub, fun hne => absurd (hown.trans hall) hne, fun _ => hd, ?_⟩
        rw [hc, List.filter_append, hcalls, callOf_filter, if_pos (hown.trans hall)]
      · obtain ⟨s', c', hr', hh', hc⟩ := hh.block ha.inv hmsg hall
        rw [hr'] at hr
        cases hr
        refine ⟨hi', by rw [hown]; exact hsub, fun _ => ⟨c', by rw [hown]; exact hh'⟩,
          fun heq => absurd (hown.symm.trans heq) hall, ?_⟩
        rw [hc, hcalls, if_neg fun heq => hall (hown.symm.trans heq), List.append_nil]

theorem Transfer.After.run {s₁ : State} {xs : List (Option ℕ)} (h₁ : t.After s₁ [] s₁) (hrun : Run t.Arrives s₁ xs s) :
    t.After s₁ xs s :=
  Run.history (I := t.After s₁) h₁ (fun _ _ _ _ ha hx => ha.step hx) hrun

/-! ## Delivery -/

/-- **From the state on, the blocks of the transfer deliver its file**, in whatever order they arrive and whatever
arrives in between: while blocks are missing a block is answered with 0 and no reply, the one missing last ends the
transfer and runs the callback, every later one is refused; and the callback ran for the transfer once at most, and not
before the end. -/
def Transfer.Delivers (t : Transfer) (s₁ : State) : Prop :=
  ∀ xs s, Run t.Arrives s₁ xs s → ∀ k msg, BlockOf t.fileid t.blocks k msg →
    (received xs ≠ Finset.range t.blocks.length → insert k (received xs) ≠ Finset.range t.blocks.length →
      ∃ s', receive .good s msg = .ok ⟨.ok, none, 0, s'⟩ ∧ s'.calls = s.calls) ∧
    (received xs ≠ Finset.range t.blocks.length → insert k (received xs) = Finset.range t.blocks.length →
      ∃ s', receive .good s msg = .ok ⟨.ok, some t.wfname, cInt t.wfname.length, s'⟩ ∧ t.Done s' ∧
        s'.calls = s.calls ++ callOf t.fileid t.record) ∧
    (received xs = Finset.range t.blocks.length → t.Done s ∧ receive .good s msg = .ok ⟨.ht, none, 0, s⟩) ∧
    s.calls.filter (·.fileid = t.fileid) = s₁.calls.filter (·.fileid = t.fileid) ++
      if received xs = Finset.range t.blocks.length then callOf t.fileid t.record else []

/-- Before the first arrival. -/
theorem Transfer.Holds.after (hi : Inv s) (hh : t.Holds s ∅ c) (hpos : 0 < t.blocks.length) : t.After s [] s := by
  have hne : received [] ≠ Finset.range t.blocks.length := by
    intro h0
    have h1 : 0 ∈ received [] := by rw [h0]; exact Finset.mem_range.2 hpos
    simp [received] at h1
  exact ⟨hi, hh.sub, fun _ => ⟨c, hh⟩, fun heq => absurd heq hne, by rw [if_neg hne, List.append_nil]⟩

theorem Transfer.Holds.delivers (hi : Inv s) (hh : t.Holds s ∅ c) (hpos : 0 < t.blocks.length) : t.Delivers s := by
  intro xs s' hrun k msg hmsg
  have ha := (hh.after hi hpos).run hrun
  refine ⟨fun hmore hmore' => ?_, fun hmore hall => ?_, fun hall => ⟨ha.done hall, (ha.done hall).block hmsg⟩, ha.calls⟩
  · obtain ⟨c', hh'⟩ := ha.going hmore
    obtain ⟨s'', c'', hr, -, hc⟩ := hh'.block ha.inv hmsg hmore'
    exact ⟨s'', hr, hc⟩
  · obtain ⟨c', hh'⟩ := ha.going hmore
    exact hh'.last_block ha.inv hmsg hall

/-- An accepted HELLO leaves a context that stands for a transfer with no block received. -/
theorem hello_holds (hi : Inv s) (hp : parse msg = .ok (.ok, n)) (ht : MsgType.ofCode n.type = some .hello)
    (hr : receive h s msg = .ok r) (hrv : r.rv = .ok) :
    s.files (nftpHash n.name) = none ∧ r.rmsg = some (ackOf n.id n.name) ∧ r.rlen = 10 ∧ ∃ w a rcd c,
      pickName s n.name = .ok (some w) ∧ s.heap a = some rcd ∧ (rcd.fname = n.name ∨ rcd.fname = star) ∧
      ∀ blocks : List Bytes, n.blocks.toNat = blocks.length → n.hashcode = nftpHash blocks.flatten →
        Transfer.Holds ⟨nftpHash n.name, w, a, rcd, blocks⟩ r.st ∅ c := by
  obtain ⟨hnone, hrmsg, hrlen, w, a, rcd, hpick, hfits, hrcd, hname, hdir, hfiles, hfs, hheap⟩ :=
    hello_started hi hp ht hr hrv
  refine ⟨hnone, hrmsg, hrlen, w, a, rcd, helloCtx n a w, hpick, hrcd, hname, fun blocks hN hhash => ?_⟩
  refine ⟨Finset.empty_subset _, by rw [hfiles]; exact Function.update_self .., hN, firstMissing_empty.symm, rfl, rfl, hhash,
    ?_, ?_, hfits, hheap, ?_⟩
  · intro k e _ he
    rw [if_neg (Finset.notMem_empty k), helloCtx_empty he]
  · rw [part_congr hdir, hfs]
    exact created_self ..
  · rcases hname with h' | h'
    · exact .inr (by rw [h'])
    · exact .inl h'

end Nftp
