import Nftp.Ending
import Nftp.Sender
/-!
# Repair — asking for the block that is missing

A repair round couples two endpoints: the receiver asks with a GIVEME for the block it cannot go on without, the sender
reads the block from its file, and the answer goes through the receiver's handler like any other block.  `repair` follows
a file from the HELLO made for it to the end of its transfer.
-/
namespace Nftp

open Lib

variable {S s s₁ : State} {n : Packet} {msg : Bytes} {r : Ret} {c : Nctx} {t : Transfer} {R : Finset ℕ} {f F path : Bytes}

/-- One repair round of the receiver `s` with the sender `S`: what the sender is left in, and what the receiver's handler
returns for the sender's answer.  A call that is refused ends the round. -/
def repairRound (h : Host) (S s : State) (fname : Bytes) (key : Int) : Except Fault (State × Ret) :=
  match protoRecvStatus s fname with
  | (.ok, _, nextseq) => do
    let g ← protoMaker h s (some fname) (some .giveme) key nextseq
    if g.rv ≠ .ok then .ok (S, g)
    else do
      let a ← protoHandler h S (g.rmsg.getD []) g.rlen
      if a.rv ≠ .ok then .ok (a.st, ⟨a.rv, none, 0, g.st⟩)
      else do
        let r ← protoHandler h g.st (a.rmsg.getD []) a.rlen
        return (a.st, r)
  | (rv, _, _) => .ok (S, ⟨rv, none, 0, s⟩)

theorem repairRound_eq {h : Host} {fname g a : Bytes} {key seq glen alen : Int} {cap : Option ℕ}
    (hstatus : protoRecvStatus s fname = (.ok, cap, seq))
    (hmake : protoMaker h s (some fname) (some .giveme) key seq = .ok ⟨.ok, some g, glen, s⟩)
    (hask : protoHandler h S g glen = .ok ⟨.ok, some a, alen, S⟩) (hanswer : protoHandler h s a alen = .ok r) :
    repairRound h S s fname key = .ok (S, r) := by
  simp only [repairRound, hstatus, hmake, bind_ok, ne_eq, not_true_eq_false, if_false, Option.getD_some, hask, hanswer,
    pure_ok]

structure Transfer.OfFile (t : Transfer) (S : State) (f path : Bytes) (F : Bytes) : Prop where
  offers : Offers S f path F
  fileid : t.fileid = nftpHash f
  blocks : t.blocks = chunks S.blocksz.toNat F
  offset : ∀ k, k < t.blocks.length → k * S.blocksz.toNat < 2 ^ 32

/-- The message of each block has a length that an `int` holds. -/
def Transfer.Short (t : Transfer) : Prop := ∀ b ∈ t.blocks, 15 + b.length < 2 ^ 31

/-- **What a repair round does**: the answer of the sender is the block that is next, and the receiver handles it. -/
theorem Transfer.OfFile.round {fname : Bytes} (hof : t.OfFile S f path F) (hh : t.Holds s R c) (key : Int) {b : Bytes}
    (hb : t.blocks[c.nextid]? = some b) (hname : fileBname fname = f) : ∃ a, a.length = 15 + b.length ∧
      (a.length < 2 ^ 31 → BlockOf t.fileid t.blocks c.nextid a) ∧
      ∀ r, receive .good s a = .ok r → repairRound .good S s fname key = .ok (S, r) := by
  have hlt : c.nextid < t.blocks.length := (List.getElem?_eq_some_iff.1 hb).1
  have hlen : t.blocks.length = F.length / S.blocksz.toNat + 1 := by rw [hof.blocks, chunks_length]
  have hblock : some b = some ((F.drop (c.nextid * S.blocksz.toNat)).take S.blocksz.toNat) := by
    rw [← hb, hof.blocks]
    exact chunks_getElem? (by omega)
  cases hblock
  have hk16 : c.nextid < 2 ^ 16 := by
    have := hof.offers.blocks
    rw [nftpBlockNum] at this
    omega
  obtain ⟨g, q, hmake, hglen, hq, hqt, hqid, hqseq⟩ := protoMaker_giveme .good s fname key hk16
  rw [hname] at hqid
  obtain ⟨ty, a, hty, hgive, hfile⟩ := handleGiveme_good (n := q) hof.offers hqid (by rw [hqseq]; omega)
    (by rw [hqseq]; exact hof.offset _ hlt)
  rw [hqseq] at hfile
  obtain ⟨a', hfile', halen, hparse⟩ := makeFile_good f hty hof.offers.file hof.offers.blocksz (by omega) hk16
    (hof.offset _ hlt)
  rw [hfile] at hfile'
  cases hfile'
  refine ⟨a, halen, fun hshort => ?_, fun r hr => ?_⟩
  · obtain ⟨n, hn, hnt, hnid, hnseq, hncont⟩ := hparse hshort
    refine ⟨hlt, n, hn, ?_, by rw [hnid, hof.fileid], hnseq, by rw [hncont, hb]⟩
    rcases hty with rfl | rfl
    · exact .inl hnt
    · exact .inr hnt
  · have hstatus : protoRecvStatus s fname = (.ok, some c.cap, (c.nextid : Int)) := by
      rw [protoRecvStatus, hname, ← hof.fileid, hh.files]
    have hask : protoHandler .good S g (cInt g.length) = .ok ⟨.ok, some a, cInt a.length, S⟩ := by
      have := receive_of_parse .good S hq
      rw [receive] at this
      rw [this, dispatch, hqt]
      exact hgive
    exact repairRound_eq hstatus hmake hask hr

/-- **A repair round makes progress**: it succeeds, and the position goes up or the transfer is over. -/
theorem Transfer.After.round {xs : List (Option ℕ)} {fname : Bytes} (ha : t.After s₁ xs s) (hof : t.OfFile S f path F)
    (hshort : t.Short) (hname : fileBname fname = f) (key : Int) (hmore : received xs ≠ Finset.range t.blocks.length) : ∃ c r k,
      s.files t.fileid = some c ∧ repairRound .good S s fname key = .ok (S, r) ∧ r.rv = .ok ∧
      c.nextid = firstMissing (received xs) ∧ t.After s₁ (xs ++ [some k]) r.st ∧
      firstMissing (received xs) < firstMissing (received (xs ++ [some k])) := by
  obtain ⟨c, hh⟩ := ha.going hmore
  have hlt : c.nextid < t.blocks.length := by
    rw [hh.next]
    exact Nat.lt_of_le_of_ne (firstMissing_le ha.sub) fun he => hmore ((firstMissing_eq_iff_range ha.sub).1 he)
  have hb := List.getElem?_eq_getElem hlt
  obtain ⟨a, halen, hblock, hround⟩ := hof.round hh key hb hname
  replace hblock := hblock (by rw [halen]; exact hshort _ (List.mem_of_getElem? hb))
  have hstep : ∀ r, receive .good s a = .ok r → r.rv = .ok → _ := fun r hr hrv =>
    (⟨hround r hr, hrv, ha.step ⟨.good, a, r, hr, rfl, rfl, hblock⟩⟩ :
      repairRound .good S s fname key = .ok (S, r) ∧ r.rv = .ok ∧ t.After s₁ (xs ++ [some c.nextid]) r.st)
  have hnext : firstMissing (received xs) < firstMissing (received (xs ++ [some c.nextid])) := by
    rw [received_own, hh.next]
    exact lt_firstMissing_insert _
  by_cases hall : insert c.nextid (received xs) = Finset.range t.blocks.length
  · obtain ⟨s', hr, -, -⟩ := hh.last_block ha.inv hblock hall
    obtain ⟨h1, h2, h3⟩ := hstep _ hr rfl
    exact ⟨c, _, c.nextid, hh.files, h1, h2, hh.next, h3, hnext⟩
  · obtain ⟨s', c', hr, -, -⟩ := hh.block ha.inv hblock hall
    obtain ⟨h1, h2, h3⟩ := hstep _ hr rfl
    exact ⟨c, _, c.nextid, hh.files, h1, h2, hh.next, h3, hnext⟩

def Repairs (S : State) (fname : Bytes) (s : State) (key : Int) (s' : State) : Prop :=
  ∃ r, repairRound .good S s fname key = .ok (S, r) ∧ r.rv = .ok ∧ r.st = s'

/-- **As many rounds as blocks are missing at most** end the transfer. -/
theorem Transfer.After.rounds {fname : Bytes} (hof : t.OfFile S f path F) (hshort : t.Short)
    (hname : fileBname fname = f) (key : Int) : ∀ (m : ℕ) (xs : List (Option ℕ)) (s : State), t.After s₁ xs s → t.blocks.length ≤ firstMissing (received xs) + m →
      ∃ i s', i ≤ m ∧ Run (Repairs S fname) s (List.replicate i key) s' ∧ t.Done s'
  | m, xs, s, ha, hm => by
    by_cases hall : received xs = Finset.range t.blocks.length
    · exact ⟨0, s, Nat.zero_le m, .refl, ha.done hall⟩
    obtain ⟨c, r, k, -, hround, hrv, -, ha', hnext⟩ := ha.round hof hshort hname key hall
    cases m with
    | zero =>
      have hle := firstMissing_le ha.sub
      exact absurd ((firstMissing_eq_iff_range ha.sub).1 (by omega)) hall
    | succ m =>
      obtain ⟨i, s', hi, hrun, hdone⟩ := Transfer.After.rounds hof hshort hname key m _ _ ha' (by omega)
      refine ⟨i + 1, s', by omega, ?_, hdone⟩
      exact (Run.single (⟨r, hround, hrv, rfl⟩ : Repairs S fname s key r.st)).append hrun

/-- A HELLO that was made for a file and accepted starts a transfer of the file's blocks. -/
theorem accepted_offer {S₀ s₀ : State} {m : Ret} {key i : Int} {hello : Bytes}
    (hmk : protoMaker .good S₀ (some path) (some .hello) key i = .ok m) (hmrv : m.rv = .ok) (hmsg : m.rmsg = some hello)
    (hF : S₀.fs.disk (fileCut path) = some F)
    (hoff : ∀ k, k ≤ F.length / S₀.blocksz.toNat → k * S₀.blocksz.toNat < 2 ^ 32) (hi : Inv s₀)
    (hr : receive .good s₀ hello = .ok r) (hrv : r.rv = .ok) : ∃ (t : Transfer) (c : Nctx),
      t.fileid = nftpHash (fileBname path) ∧ t.blocks = chunks S₀.blocksz.toNat F ∧ t.blocks.flatten = F ∧
      t.Holds r.st ∅ c ∧
      ∀ S, SameOffer m.st S (fileBname path) (fileCut path) → t.OfFile S (fileBname path) (fileCut path) F := by
  obtain ⟨F', msg, q, ho, hd, hblksz, hm, hq, hqt, hqname, hqblocks, hqhash⟩ := protoMaker_hello hmk hmrv
  have hmsg' : msg = hello := by
    rw [hm] at hmsg
    exact Option.some.inj hmsg
  subst hmsg'
  have hFF : F' = F := Option.some.inj (hd.symm.trans hF)
  subst hFF
  have hpos : 0 < S₀.blocksz.toNat := by
    rw [← hblksz]
    exact Nat.pos_of_ne_zero fun h0 => ho.blocksz (UInt32.toNat_inj.1 h0)
  have hflat := chunks_flatten hpos F'
  obtain ⟨-, -, -, w, a, rcd, c, -, -, -, hall⟩ := hello_holds hi hq hqt hr hrv
  have hh := hall (chunks S₀.blocksz.toNat F') (by rw [chunks_length]; exact hqblocks) (by rw [hflat]; exact hqhash)
  rw [hqname] at hh
  refine ⟨_, c, rfl, rfl, hflat, hh, fun S hS => ?_⟩
  have hSblk : S.blocksz = S₀.blocksz := hS.blocksz.trans hblksz
  refine ⟨ho.same hS, rfl, by rw [hSblk], fun k hk => ?_⟩
  replace hk : k < (chunks S₀.blocksz.toNat F').length := hk
  rw [chunks_length] at hk
  rw [hSblk]
  exact hoff k (Nat.le_of_lt_succ hk)

/-- **Repair finishes.**  A file offered with a HELLO that the receiver accepts, the messages of its blocks short enough:
after any arrivals that leave the transfer going, a round succeeds and takes the position up, and at most as many rounds
as there are blocks deliver the file. -/
theorem repair {S₀ s₀ : State} {m : Ret} {key i : Int} {hello : Bytes}
    (hmk : protoMaker .good S₀ (some path) (some .hello) key i = .ok m) (hmrv : m.rv = .ok) (hmsg : m.rmsg = some hello)
    (hF : S₀.fs.disk (fileCut path) = some F)
    (hoff : ∀ k, k ≤ F.length / S₀.blocksz.toNat → k * S₀.blocksz.toNat < 2 ^ 32)
    (hshort : ∀ b ∈ chunks S₀.blocksz.toNat F, 15 + b.length < 2 ^ 31) (hl : Live s₀)
    (hr : receive .good s₀ hello = .ok r) (hrv : r.rv = .ok) :
    ∃ t : Transfer, t.fileid = nftpHash (fileBname path) ∧ t.blocks = chunks S₀.blocksz.toNat F ∧ t.blocks.flatten = F ∧
      (r.st.files t.fileid).isSome ∧ ∀ S, SameOffer m.st S (fileBname path) (fileCut path) → ∀ xs s, Run t.Arrives r.st xs s →
        ∀ c, s.files t.fileid = some c → ∀ fname, fileBname fname = fileBname path → ∀ key,
          (∃ r', repairRound .good S s fname key = .ok (S, r') ∧ r'.rv = .ok ∧
            (t.Done r'.st ∨ ∃ c', r'.st.files t.fileid = some c' ∧ c.nextid < c'.nextid)) ∧
          ∃ j s', j ≤ t.blocks.length ∧ Run (Repairs S fname) s (List.replicate j key) s' ∧ t.Done s' := by
  obtain ⟨t, c₀, hid, hblocks, hflat, hh, hof⟩ := accepted_offer hmk hmrv hmsg hF hoff hl.inv hr hrv
  have hpos : 0 < t.blocks.length := by
    rw [hblocks, chunks_length]
    exact Nat.succ_pos _
  refine ⟨t, hid, hblocks, hflat, by rw [hh.files]; rfl, fun S hS xs s hrun c hc fname hname key => ?_⟩
  replace hof := hof S hS
  have ha := (hh.after (receive_inv hl.inv hr) hpos).run hrun
  replace hshort : t.Short := by
    rw [Transfer.Short, hblocks]
    exact hshort
  have hmore : received xs ≠ Finset.range t.blocks.length := by
    intro hall'
    rw [(ha.done hall').files] at hc
    cases hc
  constructor
  · obtain ⟨c', r', k, hc', hround, hrv', hnext, ha', hup⟩ := ha.round hof hshort hname key hmore
    rw [hc] at hc'
    cases hc'
    refine ⟨r', hround, hrv', ?_⟩
    by_cases hdone : received (xs ++ [some k]) = Finset.range t.blocks.length
    · exact .inl (ha'.done hdone)
    · obtain ⟨c', hh'⟩ := ha'.going hdone
      exact .inr ⟨c', hh'.files, by rw [hnext, hh'.next]; exact hup⟩
  · exact Transfer.After.rounds hof hshort hname key _ xs s ha (by omega)

/-- A file `f` can be offered and received: there is a receiver that accepts the HELLO made for it. -/
theorem offer_accepted {S₀ : State} (hd : S₀.fs.disk [0x66] = some F) (hb : S₀.blocksz ≠ 0)
    (hN : F.length / S₀.blocksz.toNat + 1 ≤ nftpBlockNum) : ∃ (m r : Ret) (s₀ : State) (hello : Bytes),
      protoMaker .good S₀ (some [0x66]) (some .hello) 7 0 = .ok m ∧ m.rv = .ok ∧ m.rmsg = some hello ∧ Live s₀ ∧
      receive .good s₀ hello = .ok r ∧ r.rv = .ok := by
  obtain ⟨s₀, hl, hroom⟩ := trace_live none 1 .empty []
    (fun s => s.files 0 = none ∧ s.files (nftpHash [0x66]) = none ∧ HasRoom s.recvdir s.Free [0x66]) (by decide +kernel)
  obtain ⟨m, q, hmake, -, hq, ht, hname, -⟩ := makeHello_good (f := [0x66]) 7 hd hb hN (by decide) (by decide)
  have hqn : q.name = [0x66] := by rw [Packet.name, hname]; rfl
  have hacc : Accepts s₀ m q := by
    rw [accepts_iff hl.inv hq ht, hqn]
    exact hroom
  obtain ⟨r, hr, hrv, -⟩ := hacc
  exact ⟨_, r, s₀, m, hmake, rfl, rfl, hl, hr, hrv⟩

def senderOf (path : Path) (content : Bytes) (blksz : UInt32) : State :=
  State.boot none blksz { disk := fun q => if q = path then some content else none, ops := [] }

/-- A file of two blocks, none of which arrives but by repair. -/
theorem repair_two : ∃ (t : Transfer) (m r : Ret) (s₀ s' : State) (hello : Bytes) (j : ℕ),
    protoMaker .good (senderOf [0x66] [1, 2, 3] 2) (some [0x66]) (some .hello) 7 0 = .ok m ∧ m.rmsg = some hello ∧
    Live s₀ ∧ receive .good s₀ hello = .ok r ∧ j ≤ 2 ∧ Run (Repairs m.st [0x66]) r.st (List.replicate j 0) s' ∧
    t.blocks = [[1, 2], [3]] ∧ t.Done s' := by
  have hF : (senderOf [0x66] [1, 2, 3] 2).fs.disk [0x66] = some [1, 2, 3] := rfl
  obtain ⟨m, r, s₀, hello, hm, hmrv, hmsg, hl, hr, hrv⟩ := offer_accepted hF (by decide) (by decide)
  obtain ⟨t, -, hblocks, -, hsome, hall⟩ := repair hm hmrv hmsg hF (by decide) (by decide) hl hr hrv
  obtain ⟨c, hc⟩ := Option.isSome_iff_exists.1 hsome
  obtain ⟨-, j, s', hj, hrun, hdone⟩ := hall m.st ⟨rfl, rfl, rfl⟩ [] r.st .refl c hc [0x66] rfl 0
  rw [hblocks] at hj
  exact ⟨t, m, r, s₀, s', hello, j, hm, hmsg, hl, hr, hj, hrun, hblocks, hdone⟩

/-- A file of one block of `2 ^ 31 - 15` bytes: its HELLO is accepted, and every repair round is refused, for the length
of the answer does not pass through an `int`. -/
theorem long_block_refused : ∃ (F : Bytes) (m r : Ret) (s₀ : State) (hello : Bytes) (c : Nctx),
    protoMaker .good (senderOf [0x66] F 0xFFFFFFFF) (some [0x66]) (some .hello) 7 0 = .ok m ∧ m.rv = .ok ∧
    m.rmsg = some hello ∧ Live s₀ ∧ receive .good s₀ hello = .ok r ∧ r.rv = .ok ∧
    F = List.replicate (2 ^ 31 - 15) 0 ∧ r.st.files (nftpHash [0x66]) = some c ∧ c.nextid = 0 ∧ c.cap = 1 ∧
    ∀ key, repairRound .good m.st r.st [0x66] key = .ok (m.st, ⟨.stream, none, 0, r.st⟩) := by
  obtain ⟨F, hrep⟩ : ∃ F : Bytes, F = List.replicate (2 ^ 31 - 15) 0 := ⟨_, rfl⟩
  have hlen : F.length = 2 ^ 31 - 15 := by rw [hrep, List.length_replicate]
  have hmax : (0xFFFFFFFF : UInt32).toNat = 2 ^ 32 - 1 := rfl
  have hzero : F.length / (0xFFFFFFFF : UInt32).toNat = 0 := Nat.div_eq_of_lt (by rw [hlen, hmax]; decide)
  have hblksz : (senderOf [0x66] F 0xFFFFFFFF).blocksz = 0xFFFFFFFF := rfl
  have hF : (senderOf [0x66] F 0xFFFFFFFF).fs.disk [0x66] = some F := rfl
  obtain ⟨m, r, s₀, hello, hm, hmrv, hmsg, hl, hr, hrv⟩ := offer_accepted hF (by rw [hblksz]; decide)
    (by rw [hblksz, hzero]; decide)
  have hname : fileBname [0x66] = [0x66] := by decide
  obtain ⟨t, c, hid, hblocks, -, hh, hof⟩ := accepted_offer hm hmrv hmsg hF
    (fun k hk => by rw [hblksz, hzero] at hk; rw [Nat.le_zero.1 hk, Nat.zero_mul]; decide) hl.inv hr hrv
  have hnext : c.nextid = 0 := hh.next.trans firstMissing_empty
  have hone : t.blocks = [F] := by
    rw [hblocks, hblksz, chunks, hzero]
    simp only [Nat.zero_add, List.range_one, List.map_cons, List.map_nil, Nat.zero_mul, List.drop_zero]
    rw [List.take_of_length_le (by rw [hlen, hmax]; decide)]
  have hb : t.blocks[c.nextid]? = some F := by rw [hone, hnext]; rfl
  have hfiles := hh.files
  rw [hid, hname] at hfiles
  refine ⟨F, m, r, s₀, hello, c, hm, hmrv, hmsg, hl, hr, hrv, hrep, hfiles, hnext, by rw [hh.cap, hone]; rfl, fun key => ?_⟩
  obtain ⟨a, halen, -, hround⟩ := (hof m.st ⟨rfl, rfl, rfl⟩).round hh key hb rfl
  exact hround _ (receive_long .good r.st (by rw [halen, hlen]; decide) (by rw [halen, hlen]; decide))

end Nftp
