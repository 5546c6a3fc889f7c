import Nftp.Resume
/-!
# Cache — what the block cache holds and counts

While blocks of a transfer are missing its cache should hold the blocks received behind the position and no other, and
`len` count the blocks received.  `Nctx.Counts` says so of a context, and `Nctx.Fresh` which blocks keep it so: not those
written already, which are cached once more, nor those cached without a byte, which are counted once more.
-/
namespace Nftp

open Lib

variable {h : Host} {s s' : State} {n : Packet} {msg : Bytes} {r : Ret} {c : Nctx} {e : Event} {es : List Event}
  {g : UInt32} {N : ℕ} {R : Finset ℕ} {x x' : State × Finset ℕ}

structure Nctx.Counts (c : Nctx) (R : Finset ℕ) : Prop where
  len : c.len = R.card
  body : ∀ k b, c.entries[k]? = some b → (b.body.isSome ↔ k ∈ R ∧ c.nextid < k)

/-- Block `k` is not one that is written, nor one whose cached body is empty. -/
def Nctx.Fresh (c : Nctx) (k : ℕ) : Prop := c.nextid ≤ k ∧ (k ≠ c.nextid → c.entries[k]? ≠ some ⟨some [], 0⟩)

instance (c : Nctx) (k : ℕ) : Decidable (c.Fresh k) := inferInstanceAs (Decidable (_ ∧ _))

/-- A cached body that block `k` replaces passes the test for releasing it. -/
def Nctx.Releases (c : Nctx) (k : ℕ) : Prop :=
  k ≠ c.nextid → ∀ b, c.entries[k]? = some b → b.body.isSome → b.len ≠ 0

/-! ## One block -/

theorem Nctx.Fresh.releases {k : ℕ} (hf : c.Fresh k) (hw : c.Wf) : c.Releases k := by
  intro hne b hb hbody hlen
  obtain ⟨v, hv⟩ := Option.isSome_iff_exists.1 hbody
  have hzero : v = [] := List.length_eq_zero_iff.1 ((hw.len b (List.mem_of_getElem? hb) v hv).symm.trans hlen)
  refine hf.2 hne ?_
  rw [hb, ← hlen, ← hzero, ← hv]

/-- The block that is next is counted, and what it and the run behind it leave in the cache was received. -/
theorem Nctx.Counts.appended (hcnt : c.Counts R) (ht : c.Tally N R) (hw : c.Wf) :
    (c.appended (c.run.length + 1) .ok).Counts (insert c.nextid R) := by
  have hmiss : c.nextid ∉ R := by
    rw [ht.next]
    exact firstMissing_notMem R
  obtain ⟨-, hout⟩ := ht.run hw
  refine ⟨?_, fun k b hb => ?_⟩
  · rw [Finset.card_insert_of_notMem hmiss, Nat.cast_succ, ← hcnt.len]
    rfl
  · rw [appended_nextid]
    by_cases hk : c.nextid + (c.run.length + 1) ≤ k
    · rw [appended_entries .ok hk] at hb
      have hne : k ≠ c.nextid := by omega
      rw [hcnt.body k b hb, Finset.mem_insert, or_iff_right hne]
      refine and_congr_right fun hmem => ?_
      have hend : k ≠ c.nextid + 1 + c.run.length := fun hk' => hout (hk' ▸ hmem)
      omega
    · replace hb : (emptied c.entries (c.nextid + 1) c.run.length)[k]? = some b := hb
      refine iff_of_false (fun hbody => ?_) fun hcon => by omega
      rw [emptied_getElem?] at hb
      by_cases hrun : c.nextid + 1 ≤ k ∧ k < c.nextid + 1 + c.run.length
      · rw [if_pos hrun] at hb
        obtain ⟨b', -, rfl⟩ := Option.map_eq_some_iff.1 hb
        cases hbody
      · rw [if_neg hrun] at hb
        have hlt := ((hcnt.body k b hb).1 hbody).2
        omega

/-- A block that is cached is counted as it should be exactly when it is fresh. -/
theorem Nctx.Counts.cached_iff (hcnt : c.Counts R) (hw : c.Wf) {v : Bytes} (hv : n.content = some v) {b : Buf}
    (hb : c.entries[n.blockseq.toNat]? = some b) (hne : n.blockseq.toNat ≠ c.nextid) :
    (c.cached n b).Counts (insert n.blockseq.toNat R) ↔ c.Fresh n.blockseq.toNat := by
  obtain ⟨hlt, -⟩ := List.getElem?_eq_some_iff.1 hb
  have hset : ∀ k, (c.cached n b).entries[k]? = if n.blockseq.toNat = k then some ⟨some v, n.ctlen⟩ else c.entries[k]? := by
    intro k
    rw [cached_entries hlt, hv]
  have hlen : (c.cached n b).len = (if b.len ≠ 0 ∧ b.body.isSome then c.len - 1 else c.len) + 1 := rfl
  have hown := hcnt.body _ b hb
  by_cases hlate : n.blockseq.toNat < c.nextid
  · -- written already: its entry has a body now
    refine iff_of_false (fun hcon => ?_) fun hf => Nat.not_le_of_lt hlate hf.1
    have hbehind := ((hcon.body n.blockseq.toNat ⟨some v, n.ctlen⟩ (by rw [hset, if_pos rfl])).1 rfl).2
    exact Nat.lt_asymm hlate hbehind
  have hgt : c.nextid < n.blockseq.toNat := by omega
  have hbody : ∀ k b', (c.cached n b).entries[k]? = some b' →
      (b'.body.isSome ↔ k ∈ insert n.blockseq.toNat R ∧ c.nextid < k) := by
    intro k b' hb'
    rw [hset] at hb'
    by_cases hk : n.blockseq.toNat = k
    · rw [if_pos hk] at hb'
      cases hb'
      rw [← hk]
      exact iff_of_true rfl ⟨Finset.mem_insert_self .., hgt⟩
    · rw [if_neg hk] at hb'
      rw [hcnt.body k b' hb', Finset.mem_insert, or_iff_right (Ne.symm hk)]
  have hcounts : (c.cached n b).Counts (insert n.blockseq.toNat R) ↔
      (c.cached n b).len = (insert n.blockseq.toNat R).card := ⟨fun hcon => hcon.len, fun h' => ⟨h', hbody⟩⟩
  rw [hcounts, hlen, hcnt.len]
  by_cases hmem : n.blockseq.toNat ∈ R
  · -- cached already: replaced when its length is not 0, else counted once more
    have hsome := hown.2 ⟨hmem, hgt⟩
    rw [Finset.insert_eq_of_mem hmem]
    by_cases hzero : b.len = 0
    · refine iff_of_false (fun hcon => ?_) fun hf => hf.releases hw hne b hb hsome hzero
      rw [if_neg (fun h' => h'.1 hzero)] at hcon
      omega
    · rw [if_pos ⟨hzero, hsome⟩]
      refine iff_of_true (by omega) ⟨Nat.le_of_lt hgt, fun _ hempty => hzero ?_⟩
      rw [hb] at hempty
      cases hempty
      rfl
  · have hnone : ¬ b.body.isSome := fun hsome => hmem (hown.1 hsome).1
    rw [if_neg (fun h' => hnone h'.2), Finset.card_insert_of_notMem hmem]
    refine iff_of_true (Nat.cast_succ _).symm ⟨Nat.le_of_lt hgt, fun _ hempty => hnone ?_⟩
    rw [hb] at hempty
    cases hempty
    rfl

/-- **A block is counted as it should be** exactly when it is fresh. -/
theorem Nctx.Counts.storing_iff (hcnt : c.Counts R) (ht : c.Tally N R) (hw : c.Wf) {v : Bytes} (hv : n.content = some v)
    (hk : n.blockseq.toNat < N) : (c.storing n).Counts (insert n.blockseq.toNat R) ↔ c.Fresh n.blockseq.toNat := by
  unfold Nctx.storing
  by_cases hseq : n.blockseq.toNat = c.nextid
  · rw [if_pos hseq, hseq]
    exact iff_of_true (hcnt.appended ht hw) ⟨Nat.le_refl _, fun hne => absurd rfl hne⟩
  · have hlt : n.blockseq.toNat < c.entries.length := by rw [hw.length, ht.cap]; exact hk
    have hb := List.getElem?_eq_getElem hlt
    rw [if_neg hseq, List.getD_eq_getElem?_getD, hb, Option.getD_some]
    exact hcnt.cached_iff hw hv hb hseq

/-! ## Runs -/

/-- The context under the id counts the blocks received. -/
def Counted (g : UInt32) (x : State × Finset ℕ) : Prop := ∃ c, x.1.files g = some c ∧ c.Counts x.2

/-- The block the call brings, if it brings one, is fresh. -/
def Event.Fresh (g : UInt32) (s : State) (e : Event) : Prop :=
  ∀ h n c, e.Brings g h n → s.files g = some c → c.Fresh n.blockseq.toNat

/-- A body the block replaces, if the call brings one, is released. -/
def Event.Releases (g : UInt32) (s : State) (e : Event) : Prop :=
  ∀ h n c, e.Brings g h n → s.files g = some c → c.Releases n.blockseq.toNat

/-- A step that keeps the count while blocks are missing, and one that brings fresh blocks only. -/
def ArrivesCounted (g : UInt32) (N : ℕ) (x : State × Finset ℕ) (e : Event) (x' : State × Finset ℕ) : Prop :=
  Arrives g N x e x' ∧ (x.2 ≠ Finset.range N → e.Releases g x.1) ∧ (x'.2 ≠ Finset.range N → Counted g x')
def ArrivesFresh (g : UInt32) (N : ℕ) (x : State × Finset ℕ) (e : Event) (x' : State × Finset ℕ) : Prop :=
  Arrives g N x e x' ∧ (x.2 ≠ Finset.range N → e.Fresh g x.1)

theorem Event.Misses.not_brings (he : e.Misses g) : ¬ e.Brings g h n := by
  rintro ⟨m, rfl, hp, hblock, hid⟩
  exact he n hp (by rw [hblock.key_eq, hid])

/-- What is asked of the block a call brings is asked of the one block it brings. -/
theorem Event.Brings.forall_iff {P : Nctx → Packet → Prop} (he : e.Brings g h n) (hc : s.files g = some c) :
    (∀ h n c, e.Brings g h n → s.files g = some c → P c n) ↔ P c n := by
  refine ⟨fun hall => hall h n c he hc, ?_⟩
  rintro hP h' n' c' ⟨m', heq, hp', -⟩ hc'
  obtain ⟨m, rfl, hp, -⟩ := he
  cases heq
  rw [hp] at hp'
  cases hp'
  rw [hc] at hc'
  cases hc'
  exact hP

/-- The block that completes the transfer is the one that is next. -/
theorem Nctx.Tally.last {k : ℕ} (ht : c.Tally N R) (hw : c.Wf) (hmore : R ≠ Finset.range N)
    (hlast : insert k R = Finset.range N) : k = c.nextid := by
  obtain ⟨⟨⟨hlt, hmiss⟩, -⟩, -⟩ := ht.position hw hmore
  have hmem : c.nextid ∈ insert k R := by
    rw [hlast]
    exact Finset.mem_range.2 hlt
  exact ((Finset.mem_insert.1 hmem).resolve_right hmiss).symm

/-- The context stands for the blocks received and counts them, while any is missing. -/
structure Counting (g : UInt32) (N : ℕ) (x : State × Finset ℕ) : Prop extends Receiving g N x where
  counted : x.2 ≠ Finset.range N → Counted g x

/-- **One step** keeps the count, and releases what it replaces, exactly when the block it brings is fresh. -/
theorem step_counted_iff (hx : Counting g N x) : ArrivesCounted g N x e x' ↔ ArrivesFresh g N x e x' := by
  refine and_congr_right fun ha => ?_
  obtain ⟨s, R⟩ := x
  obtain ⟨s', R'⟩ := x'
  by_cases hall : R = Finset.range N
  · have hall' : R' = Finset.range N := by
      rcases ha with ⟨-, ⟨-, hR⟩ | ⟨h, n, -, hk, hR, -⟩⟩
      · exact hR.trans hall
      · replace hR : R' = insert n.blockseq.toNat R := hR
        rw [hR, hall, Finset.insert_eq_of_mem (Finset.mem_range.2 hk)]
    exact iff_of_true ⟨fun h' => absurd hall h', fun h' => absurd hall' h'⟩ fun h' => absurd hall h'
  obtain ⟨c, hc, ht⟩ := hx.going hall
  obtain ⟨c₁, hc₁, hcnt⟩ := hx.counted hall
  replace hc : s.files g = some c := hc
  replace hc₁ : s.files g = some c₁ := hc₁
  rw [hc] at hc₁
  cases hc₁
  have hw := (hx.inv.ctx _ c hc).toWf
  rcases ha with ⟨hs, ⟨hmiss, hR⟩ | ⟨h, n, hbrings, hk, hR, happ⟩⟩
  · obtain rfl : R' = R := hR
    refine iff_of_true ⟨fun _ _ _ _ hb => absurd hb hmiss.not_brings, fun _ => ?_⟩ fun _ _ _ _ hb => absurd hb hmiss.not_brings
    exact ⟨c, (step_misses hx.inv hs hmiss).trans hc, hcnt⟩
  · obtain rfl : R' = insert n.blockseq.toNat R := hR
    have hfresh : (R ≠ Finset.range N → e.Fresh g s) ↔ c.Fresh n.blockseq.toNat :=
      (forall_prop_of_true hall).trans (hbrings.forall_iff hc)
    have hrel : (R ≠ Finset.range N → e.Releases g s) ↔ c.Releases n.blockseq.toNat :=
      (forall_prop_of_true hall).trans (hbrings.forall_iff hc)
    rw [hfresh, hrel]
    by_cases hlast : insert n.blockseq.toNat R = Finset.range N
    · have hnext := ht.last hw hall hlast
      exact iff_of_true ⟨fun hne => absurd hnext hne, fun hne => absurd hlast hne⟩ ⟨by omega, fun hne => absurd hnext hne⟩
    · obtain ⟨hc', -⟩ := step_brings hx.inv hs hbrings hk hc ht (happ c hc) hlast
      obtain ⟨v, hv⟩ : ∃ v, n.content = some v := by
        obtain ⟨m, -, hp, hblock, -⟩ := hbrings
        obtain ⟨v, hv, -⟩ := parse_file hp hblock
        exact ⟨v, hv⟩
      have hiff : (insert n.blockseq.toNat R ≠ Finset.range N → Counted g (s', insert n.blockseq.toNat R)) ↔
          c.Fresh n.blockseq.toNat := by
        rw [forall_prop_of_true hlast, ← hcnt.storing_iff ht hw hv hk]
        refine ⟨fun ⟨c', hc'', hcnt'⟩ => ?_, fun hcnt' => ⟨_, hc', hcnt'⟩⟩
        replace hc'' : s'.files g = some c' := hc''
        rw [hc'] at hc''
        cases hc''
        exact hcnt'
      rw [hiff]
      exact ⟨fun h' => h'.2, fun hf => ⟨hf.releases hw, hf⟩⟩

theorem helloCtx_counts (n : Packet) (a : Addr) (w : Bytes) : (helloCtx n a w).Counts ∅ := by
  refine ⟨rfl, fun k b hb => ?_⟩
  rw [helloCtx_empty hb]
  exact iff_of_false nofun fun h' => Finset.notMem_empty k h'.1

theorem hello_counting (hi : Inv s) (hp : parse msg = .ok (.ok, n)) (ht : MsgType.ofCode n.type = some .hello)
    (hr : receive h s msg = .ok r) (hrv : r.rv = .ok) : Counting (nftpHash n.name) n.blocks.toNat (r.st, ∅) := by
  obtain ⟨a, w, hc⟩ := hello_files hi hp ht hr hrv
  exact ⟨hello_receiving hi hp ht hr hrv, fun _ => ⟨helloCtx n a w, hc, helloCtx_counts n a w⟩⟩

/-- **The runs that keep the cache exact** are those that bring fresh blocks only: while blocks are missing `len` is the
number of blocks received, the entries with a body are those of the blocks received behind the position, and a body that
is replaced was released. -/
theorem cache_exact (hl : Live s) (hp : parse msg = .ok (.ok, n)) (ht : MsgType.ofCode n.type = some .hello)
    (hr : receive h s msg = .ok r) (hrv : r.rv = .ok) :
    (Run (ArrivesCounted (nftpHash n.name) n.blocks.toNat) (r.st, ∅) es x ↔
      Run (ArrivesFresh (nftpHash n.name) n.blocks.toNat) (r.st, ∅) es x) ∧
    (Run (ArrivesFresh (nftpHash n.name) n.blocks.toNat) (r.st, ∅) es x → x.2 ≠ Finset.range n.blocks.toNat →
      Counted (nftpHash n.name) x) := by
  have hstart := hello_counting hl.inv hp ht hr hrv
  have hkeep : ∀ x e x', Counting (nftpHash n.name) n.blocks.toNat x →
      ArrivesCounted (nftpHash n.name) n.blocks.toNat x e x' → Counting (nftpHash n.name) n.blocks.toNat x' :=
    fun x e x' hx ha => ⟨hx.toReceiving.step ha.1, ha.2.2⟩
  have hcongr : Run (ArrivesCounted (nftpHash n.name) n.blocks.toNat) (r.st, ∅) es x ↔
      Run (ArrivesFresh (nftpHash n.name) n.blocks.toNat) (r.st, ∅) es x :=
    Run.congr hkeep (fun x e x' hx => step_counted_iff hx) hstart
  exact ⟨hcongr, fun hrun => ((hcongr.2 hrun).invariant hkeep hstart).counted⟩

theorem fresh_fileBytes {f b : Bytes} {blockseq : UInt16} (hlen : b.length < 2 ^ 31 - 15)
    (hf : ∀ c, s.files (nftpHash f) = some c → c.Fresh blockseq.toNat) :
    (Event.msg h (fileBytes f blockseq b)).Fresh (nftpHash f) s := by
  rintro h' n c ⟨m, heq, hp, -⟩ hc
  cases heq
  obtain ⟨n', hp', -, -, rfl, -⟩ := parse_fileBytes f blockseq hlen
  rw [hp] at hp'
  cases hp'
  exact hf c hc

/-- The last block of two, and once more with another body: one block is counted. -/
theorem cache_exact_replaced : ∃ s r s' c es, Live s ∧ receive .good s (helloBytes 0 2 [0x66] 0) = .ok r ∧
    Run (ArrivesCounted (nftpHash [0x66]) 2) (r.st, ∅) es (s', {1}) ∧ s'.files (nftpHash [0x66]) = some c ∧
    c.Counts {1} := by
  obtain ⟨n, hp, ht, hname, hN, -⟩ := parse_helloBytes 0 2 0 (show [0x66].length < 2 ^ 16 by decide) rfl
  obtain ⟨s, hl, r, hr, hrv, hpart, hf, r₁, hr₁, hpart₁, hf₁, r₂, hr₂, -⟩ := trace_live none 1 .empty []
    (fun s => ∃ r, receive .good s (helloBytes 0 2 [0x66] 0) = .ok r ∧ r.rv = .ok ∧
      r.st.HasPart (nftpHash [0x66]) ∧
      (∀ c, r.st.files (nftpHash [0x66]) = some c → c.Fresh 1) ∧
      ∃ r₁, receive .good r.st (fileBytes [0x66] 1 [3]) = .ok r₁ ∧
      r₁.st.HasPart (nftpHash [0x66]) ∧
      (∀ c, r₁.st.files (nftpHash [0x66]) = some c → c.Fresh 1) ∧
      ∃ r₂, receive .good r₁.st (fileBytes [0x66] 1 [4]) = .ok r₂ ∧ True) (by decide +kernel)
  have hblocks : n.blocks.toNat = 2 := by rw [hN]; rfl
  have hrun : Run (ArrivesFresh (nftpHash n.name) n.blocks.toNat) (r.st, ∅)
      ([.msg .good (fileBytes [0x66] 1 [3])] ++ [.msg .good (fileBytes [0x66] 1 [4])]) (r₂.st, insert 1 (insert 1 ∅)) := by
    rw [hname, hblocks]
    have h₁ : ArrivesFresh (nftpHash [0x66]) 2 (r.st, ∅) _ (r₁.st, insert 1 ∅) :=
      ⟨arrives_fileBytes hr₁ (by decide) (by decide) hpart, fun _ => fresh_fileBytes (by decide) hf⟩
    have h₂ : ArrivesFresh (nftpHash [0x66]) 2 (r₁.st, insert 1 ∅) _ (r₂.st, insert 1 (insert 1 ∅)) :=
      ⟨arrives_fileBytes hr₂ (by decide) (by decide) hpart₁, fun _ => fresh_fileBytes (by decide) hf₁⟩
    exact .snoc (.single h₁) h₂
  rw [Finset.insert_eq_of_mem (Finset.mem_insert_self 1 ∅)] at hrun
  obtain ⟨hiff, hcounted⟩ := cache_exact hl hp ht hr hrv
  have hmore : insert 1 ∅ ≠ Finset.range n.blocks.toNat := by
    rw [hblocks]
    decide
  obtain ⟨c, hc, hcounts⟩ := hcounted hrun hmore
  have hrun' := hiff.2 hrun
  rw [hname, hblocks] at hrun'
  rw [hname] at hc
  exact ⟨s, r, r₂.st, c, _, hl, hr, hrun', hc, hcounts⟩

/-- The first block of three twice, and the last one twice without a byte: either is counted twice, and the first one is
in the cache behind the position. -/
theorem duplicates_miscounted :
    (∃ s r s' c, Live s ∧ receive .good s (helloBytes 0 3 [0x66] 0) = .ok r ∧ r.rv = .ok ∧
      Run (Arrives (nftpHash [0x66]) 3) (r.st, ∅)
        ([.msg .good (fileBytes [0x66] 0 [1])] ++ [.msg .good (fileBytes [0x66] 0 [1])]) (s', {0}) ∧
      s'.files (nftpHash [0x66]) = some c ∧ c.len = 2 ∧ c.entries[0]? = some ⟨some [1], 1⟩) ∧
    ∃ s r s' c, Live s ∧ receive .good s (helloBytes 0 3 [0x66] 0) = .ok r ∧ r.rv = .ok ∧
      Run (Arrives (nftpHash [0x66]) 3) (r.st, ∅)
        ([.msg .good (fileBytes [0x66] 2 [])] ++ [.msg .good (fileBytes [0x66] 2 [])]) (s', {2}) ∧
      s'.files (nftpHash [0x66]) = some c ∧ c.len = 2 := by
  constructor
  · obtain ⟨s, hl, r, hr, hrv, hpart, r₁, hr₁, hpart₁, r₂, hr₂, hlen, hbody⟩ := trace_live none 1 .empty []
      (fun s => ∃ r, receive .good s (helloBytes 0 3 [0x66] 0) = .ok r ∧ r.rv = .ok ∧
        r.st.HasPart (nftpHash [0x66]) ∧
        ∃ r₁, receive .good r.st (fileBytes [0x66] 0 [1]) = .ok r₁ ∧
        r₁.st.HasPart (nftpHash [0x66]) ∧
        ∃ r₂, receive .good r₁.st (fileBytes [0x66] 0 [1]) = .ok r₂ ∧
        (r₂.st.files (nftpHash [0x66])).map Nctx.len = some 2 ∧
        (r₂.st.files (nftpHash [0x66])).bind (fun c => c.entries[0]?) = some ⟨some [1], 1⟩) (by decide +kernel)
    obtain ⟨c, hc, hlen⟩ := Option.map_eq_some_iff.1 hlen
    rw [hc, Option.bind_some] at hbody
    have hlast : Arrives (nftpHash [0x66]) 3 (r₁.st, {0}) _ (r₂.st, insert 0 {0}) :=
      arrives_fileBytes hr₂ (by decide) (by decide) hpart₁
    rw [Finset.insert_eq_of_mem (Finset.mem_singleton_self 0)] at hlast
    exact ⟨s, r, r₂.st, c, hl, hr, hrv, .snoc (.single (arrives_fileBytes hr₁ (by decide) (by decide) hpart)) hlast, hc, hlen,
      hbody⟩
  · obtain ⟨s, hl, r, hr, hrv, hpart, r₁, hr₁, hpart₁, r₂, hr₂, hc⟩ := trace_live none 1 .empty []
      (fun s => ∃ r, receive .good s (helloBytes 0 3 [0x66] 0) = .ok r ∧ r.rv = .ok ∧
        r.st.HasPart (nftpHash [0x66]) ∧
        ∃ r₁, receive .good r.st (fileBytes [0x66] 2 []) = .ok r₁ ∧
        r₁.st.HasPart (nftpHash [0x66]) ∧
        ∃ r₂, receive .good r₁.st (fileBytes [0x66] 2 []) = .ok r₂ ∧
        (r₂.st.files (nftpHash [0x66])).map Nctx.len = some 2) (by decide +kernel)
    obtain ⟨c, hc, hlen⟩ := Option.map_eq_some_iff.1 hc
    have hlast : Arrives (nftpHash [0x66]) 3 (r₁.st, {2}) _ (r₂.st, insert 2 {2}) :=
      arrives_fileBytes hr₂ (by decide) (by decide) hpart₁
    rw [Finset.insert_eq_of_mem (Finset.mem_singleton_self 2)] at hlast
    exact ⟨s, r, r₂.st, c, hl, hr, hrv, .snoc (.single (arrives_fileBytes hr₁ (by decide) (by decide) hpart)) hlast, hc, hlen⟩

end Nftp
