import Nftp.Simulation
/-!
# Lifecycle — which calls lose a context

A context is lost when it is allocated and no pointer of `files` leads to it: nothing releases it any more.  Two calls
lose one: a HELLO that fails once its context is made, and a stop whose part file cannot be removed.  No other call does.
-/
namespace Nftp

open Lib
open Function (update update_self update_of_ne)

def Machine.Lost (m : Machine) (a : Addr) : Prop := (m.ctxs a).isSome ∧ ∀ k, m.files.get k ≠ some a

variable {m m' : Machine} {h : Host} {n : Packet} {k : UInt32} {a b : Addr} {c : Nctx} {r : MachineRet}

/-! ## What each operation loses -/

theorem not_lost_fresh (hm : m.Ok) : ¬ m.Lost m.ctxBrk := fun hl => by
  rw [Machine.Lost, hm.fresh _ (Nat.le_refl _)] at hl
  cases hl.1

theorem not_lost_of_get (hk : m.files.get k = some a) : ¬ m.Lost a := fun hl => hl.2 k hk

theorem lost_alloc (hm : m.Ok) (c : Nctx) (b : Addr) : (m.ctxAlloc c).2.Lost b ↔ m.Lost b ∨ b = m.ctxBrk := by
  by_cases hb : b = m.ctxBrk
  · refine ⟨fun _ => .inr hb, fun _ => ⟨?_, fun k => ?_⟩⟩
    · show (update m.ctxs m.ctxBrk (some c) b).isSome
      rw [hb, update_self]
      rfl
    · rw [hb]
      exact hm.fresh_notin k
  · rw [or_iff_left hb]
    show (update m.ctxs m.ctxBrk (some c) b).isSome ∧ _ ↔ _
    rw [update_of_ne hb]
    exact Iff.rfl

theorem lost_store (ha : (m.ctxs a).isSome) (c : Nctx) (b : Addr) : (m.ctxStore a c).Lost b ↔ m.Lost b := by
  show (update m.ctxs a (some c) b).isSome ∧ _ ↔ _
  by_cases hb : b = a
  · rw [hb, update_self]
    exact and_congr_left fun _ => ⟨fun _ => ha, fun _ => rfl⟩
  · rw [update_of_ne hb]
    exact Iff.rfl

theorem lost_free (hr : m.ctxFree a = .ok m') (b : Addr) : m'.Lost b ↔ m.Lost b ∧ b ≠ a := by
  unfold Machine.ctxFree at hr
  split at hr
  · cases hr
  · cases hr
    show (update m.ctxs a none b).isSome ∧ _ ↔ _
    by_cases hb : b = a
    · rw [hb, update_self]
      exact ⟨fun hl => absurd hl.1 (by simp), fun hl => absurd rfl hl.2⟩
    · rw [update_of_ne hb]
      exact ⟨fun hl => ⟨hl, hb⟩, fun hl => hl.1⟩

theorem lost_erase (hm : m.Ok) {files : HashTable UInt32 Addr} (hget : files.get = htErase m.files.get k) (b : Addr) :
    ({ m with files := files } : Machine).Lost b ↔ m.Lost b ∨ m.files.get k = some b := by
  show (m.ctxs b).isSome ∧ (∀ k', files.get k' ≠ some b) ↔ _
  by_cases hk : m.files.get k = some b
  · obtain ⟨c, hc, -⟩ := hm.owned k b hk
    exact ⟨fun _ => .inr hk, fun _ => ⟨by rw [hc]; rfl, hm.erased_apart hk hget⟩⟩
  · rw [or_iff_left hk, hget, htErase]
    refine and_congr_right fun _ => ⟨fun hl k' hk' => ?_, fun hl k' hk' => ?_⟩
    · have hkk : k' ≠ k := by
        rintro rfl
        exact hk hk'
      exact hl k' (by rw [update_of_ne hkk]; exact hk')
    · by_cases hkk : k' = k
      · rw [hkk, update_self] at hk'
        cases hk'
      · rw [update_of_ne hkk] at hk'
        exact hl k' hk'

/-- A pointer written over leaves its context lost. -/
theorem lost_insert (hm : m.Ok) {files : HashTable UInt32 Addr}
    (hget : files.get = update m.files.get k (some a)) (b : Addr) :
    ({ m with files := files } : Machine).Lost b ↔ (m.Lost b ∨ m.files.get k = some b) ∧ b ≠ a := by
  show (m.ctxs b).isSome ∧ (∀ k', files.get k' ≠ some b) ↔ _
  rw [hget]
  by_cases hb : b = a
  · refine ⟨fun hl => absurd ?_ (hl.2 k), fun hl => absurd hb hl.2⟩
    rw [update_self, hb]
  · rw [and_iff_left hb]
    by_cases hk : m.files.get k = some b
    · obtain ⟨c, hc, -⟩ := hm.owned k b hk
      refine ⟨fun _ => .inr hk, fun _ => ⟨by rw [hc]; rfl, fun k' hk' => ?_⟩⟩
      by_cases hkk : k' = k
      · rw [hkk, update_self, Option.some.injEq] at hk'
        exact hb hk'.symm
      · rw [update_of_ne hkk] at hk'
        exact hkk (hm.inj hk' hk)
    · rw [or_iff_left hk]
      refine and_congr_right fun _ => ⟨fun hl k' hk' => ?_, fun hl k' hk' => ?_⟩
      · have hkk : k' ≠ k := by
          rintro rfl
          exact hk hk'
        exact hl k' (by rw [update_of_ne hkk]; exact hk')
      · by_cases hkk : k' = k
        · rw [hkk, update_self, Option.some.injEq] at hk'
          exact hb hk'.symm
        · rw [update_of_ne hkk] at hk'
          exact hl k' hk'

/-! ## What each call loses -/

/-- Between `m` and `m'` one context more is lost, or none. -/
structure Loses (m : Machine) (loses : Prop) (m' : Machine) : Prop where
  one : loses → ∃ a, ¬ m.Lost a ∧ ∀ b, m'.Lost b ↔ m.Lost b ∨ b = a
  none : ¬ loses → ∀ b, m'.Lost b ↔ m.Lost b

/-- Neither a context nor a pointer was touched. -/
theorem loses_none {loses : Prop} (hno : ¬ loses) (hctxs : m'.ctxs = m.ctxs) (hfiles : m'.files = m.files) :
    Loses m loses m' :=
  ⟨fun hl => absurd hl hno, fun _ b => by rw [Machine.Lost, Machine.Lost, hctxs, hfiles]⟩

theorem Loses.never {loses : Prop} (h : Loses m False m') (hno : ¬ loses) : Loses m loses m' :=
  ⟨fun hl => absurd hl hno, fun _ => h.none id⟩

theorem close_loses (hm : m.Ok) (hk : m.files.get c.fileid = some a) (hr : m.close a c = .ok r) : Loses m False r.st := by
  obtain ⟨rest, -, hr⟩ := bind_returns.1 hr
  obtain ⟨files, herase, hup, hget⟩ := hm.files.erase_eq c.fileid
  simp only [herase, onTable_ok, ok_bind, htSuccess, ne_eq, not_true_eq_false, if_false] at hr
  obtain ⟨m₁, hfree, hr⟩ := bind_returns.1 hr
  cases hr
  refine ⟨fun hf => hf.elim, fun _ b => ?_⟩
  rw [lost_free hfree, lost_erase (hm.withRest rest) hget]
  constructor
  · rintro ⟨hl | hb, hne⟩
    · exact hl
    · exact absurd (Option.some.inj (hb.symm.trans hk)) hne
  · intro hl
    exact ⟨.inl hl, fun hb => not_lost_of_get hk (by rw [← hb]; exact hl)⟩

theorem finish_loses (hm : m.Ok) (hk : m.files.get c.fileid = some a) {path : Path} (hr : m.finish h a c path = .ok r) :
    Loses m False r.st := by
  obtain ⟨path2, -, hr⟩ := bind_returns.1 hr
  dsimp only at hr
  split at hr
  · cases hr; exact loses_none id rfl rfl
  split at hr
  · cases hr; exact loses_none id rfl rfl
  split at hr
  · cases hr; exact loses_none id rfl rfl
  · have hclose := close_loses (m := m.withFs (fileRename h.rename m.rest.fs path path2).2)
      (withFs_simulates hm _).1 hk hr
    exact ⟨fun hf => hf.elim, hclose.none⟩

theorem handleFile_loses (hm : m.Ok) (hr : m.handleFile h n = .ok r) : Loses m False r.st := by
  unfold Machine.handleFile at hr
  rcases hm.reach n.fileid with ⟨hnone, hfound⟩ | ⟨a, c, hsome, hfound, hlook, hat, hk, hc, hid⟩
  · simp only [hfound, onTable_ok, ok_bind, if_true] at hr
    cases hr
    exact loses_none id rfl rfl
  · simp only [hfound, onTable_ok, ok_bind, htFound, htNotFound, one_ne_zero, if_false, hlook, hat] at hr
    obtain ⟨path, -, hr⟩ := bind_returns.1 hr
    obtain ⟨⟨rv, c', fs⟩, hstore, hr⟩ := bind_returns.1 hr
    have hid' : c'.fileid = n.fileid := (storeBlock_fileid (mapError_returns.1 hstore)).trans hid
    have hm₁ := (hm.ctxStore hk hid').1
    have hsame : ∀ b, ((m.ctxStore a c').withFs fs).Lost b ↔ m.Lost b := lost_store (by rw [hc]; rfl) c'
    dsimp only at hr
    split at hr
    · cases hr
      exact ⟨fun hf => hf.elim, fun _ => hsame⟩
    split at hr
    · have hfin := finish_loses (m := (m.ctxStore a c').withFs fs) (withFs_simulates hm₁ fs).1
        (show m.files.get c'.fileid = some a by rw [hid', hk]) hr
      exact ⟨fun hf => hf.elim, fun hno b => (hfin.none hno b).trans (hsame b)⟩
    · cases hr
      exact ⟨fun hf => hf.elim, fun _ => hsame⟩

theorem handleGiveme_still (hr : m.handleGiveme h n = .ok r) : r.st.ctxs = m.ctxs ∧ r.st.files = m.files := by
  obtain ⟨found, -, hr⟩ := bind_returns.1 hr
  split at hr
  · cases hr; exact ⟨rfl, rfl⟩
  obtain ⟨p, -, hr⟩ := bind_returns.1 hr
  split at hr
  · cases hr
  obtain ⟨-, -, hr⟩ := bind_returns.1 hr
  obtain ⟨⟨rv, blocks⟩, -, hr⟩ := bind_returns.1 hr
  dsimp only at hr
  split at hr
  · cases hr; exact ⟨rfl, rfl⟩
  obtain ⟨r', -, hr⟩ := bind_returns.1 hr
  cases hr
  exact ⟨rfl, rfl⟩

/-- The context at `a`, which no pointer leads to yet, comes into the table when the HELLO is accepted; otherwise it stays
lost, or the one whose pointer it took is. -/
theorem accept_lost (hm : m.Ok) (hr : m.accept h a c n = .ok r) :
    (r.rv = .ok ∧ ∀ b, r.st.Lost b ↔ m.Lost b ∧ b ≠ a) ∨
    (r.rv ≠ .ok ∧ ∀ b, r.st.Lost b ↔ m.Lost b) ∨
    (r.rv ≠ .ok ∧ ∃ a', m.files.get c.fileid = some a' ∧ ∀ b, r.st.Lost b ↔ (m.Lost b ∨ b = a') ∧ b ≠ a) := by
  obtain ⟨path, -, hr⟩ := bind_returns.1 hr
  dsimp only at hr
  split at hr
  · cases hr
    exact .inr (.inl ⟨‹_›, fun _ => Iff.rfl⟩)
  · obtain ⟨files, hins, hup, hget⟩ := hm.files.insert_eq c.fileid a
    have hlost := lost_insert (m := m) (a := a) (k := c.fileid) hm hget
    simp only [hins, onTable_ok, ok_bind] at hr
    cases hold : m.files.get c.fileid with
    | none =>
      have hcode : (htInsert m.files.get c.fileid a).1 = 0 := by rw [htInsert, hold]; rfl
      simp only [hcode, ne_eq, not_true_eq_false, if_false] at hr
      obtain ⟨r', -, hr⟩ := bind_returns.1 hr
      cases hr
      refine .inl ⟨rfl, fun b => (hlost b).trans ?_⟩
      simp only [hold, reduceCtorEq, or_false]
    | some a' =>
      have hcode : (htInsert m.files.get c.fileid a).1 ≠ 0 := by rw [htInsert, hold]; exact one_ne_zero
      rw [if_pos hcode] at hr
      cases hr
      refine .inr (.inr ⟨show Rv.ht ≠ .ok by decide, a', rfl, fun b => (hlost b).trans ?_⟩)
      simp only [hold, Option.some.injEq, eq_comm]

/-- **A HELLO loses a context** when it fails once file id 0 was found free: its own, or the one of the same key. -/
theorem handleHello_loses (hm : m.Ok) (hr : m.handleHello h n = .ok r) :
    Loses m (m.contexts n.fileid = none ∧ r.rv ≠ .ok) r.st := by
  unfold Machine.handleHello at hr
  obtain ⟨m₁, halloc, hm₁, -, -, hfiles₁, hnew₁, hat₁, hbrk₁⟩ :=
    hm.ctxAlloc (nctxAlloc n.blocks.toNat (nftpHash (cstr (n.fname.getD []))) n.hashcode)
  have hlost₁ : ∀ b, m₁.Lost b ↔ m.Lost b ∨ b = m.ctxBrk := by
    cases halloc
    exact lost_alloc hm _
  have hfound : m₁.files.contains n.fileid = .ok (if (m.contexts n.fileid).isSome then htFound else htNotFound) := by
    rw [hm₁.files.contains_eq, hfiles₁, hm.isSome]
  simp only [halloc, hfound, onTable_ok, ok_bind] at hr
  by_cases h0 : (m.contexts n.fileid).isSome
  · simp only [if_pos h0, htFound, htNotFound, ne_eq, one_ne_zero, not_false_eq_true, if_true] at hr
    obtain ⟨m₂, hfree, hr⟩ := bind_returns.1 hr
    cases hr
    refine ⟨fun hl => absurd h0 (by rw [hl.1]; exact Bool.false_ne_true), fun _ b => ?_⟩
    rw [lost_free hfree, hlost₁]
    exact ⟨fun hl => hl.1.resolve_right hl.2, fun hl => ⟨.inl hl, fun hb => not_lost_fresh hm (hb ▸ hl)⟩⟩
  · have hnone : m.contexts n.fileid = none := by simpa using h0
    simp only [if_neg h0, ne_eq, not_true_eq_false, if_false] at hr
    obtain ⟨⟨fcb, rest⟩, -, hr⟩ := bind_returns.1 hr
    obtain ⟨wfname, -, hr⟩ := bind_returns.1 hr
    cases wfname with
    | none => cases hr
    | some w =>
      let c : Nctx := { nctxAlloc n.blocks.toNat (nftpHash (cstr (n.fname.getD []))) n.hashcode with fcb := fcb, wfname := w }
      let m₂ : Machine := ({ m₁ with rest := rest } : Machine).ctxStore m.ctxBrk c
      have hr : m₂.accept h m.ctxBrk c n = .ok r := hr
      have hm₂ : m₂.Ok := ((hm₁.withRest rest).apart hnew₁ (.inr (by rw [hbrk₁]; exact Nat.lt_succ_self _))).1
      have hlost₂ : ∀ b, m₂.Lost b ↔ m.Lost b ∨ b = m.ctxBrk := fun b =>
        (lost_store (m := { m₁ with rest := rest }) (by rw [hat₁]; rfl) c b).trans (hlost₁ b)
      have hfresh : ∀ b, m.Lost b → b ≠ m.ctxBrk := fun b hl hb => not_lost_fresh hm (hb ▸ hl)
      rcases accept_lost hm₂ hr with ⟨hrv, hlost⟩ | ⟨hrv, hlost⟩ | ⟨hrv, a', hget, hlost⟩
      · refine ⟨fun hl => absurd hrv hl.2, fun _ b => ?_⟩
        rw [hlost, hlost₂]
        exact ⟨fun hl => hl.1.resolve_right hl.2, fun hl => ⟨.inl hl, hfresh b hl⟩⟩
      · refine ⟨fun _ => ⟨m.ctxBrk, not_lost_fresh hm, fun b => (hlost b).trans (hlost₂ b)⟩, fun hno => ?_⟩
        exact absurd ⟨hnone, hrv⟩ hno
      · have hget' : m.files.get c.fileid = some a' := by rw [← hfiles₁]; exact hget
        refine ⟨fun _ => ⟨a', not_lost_of_get hget', fun b => ?_⟩, fun hno => absurd ⟨hnone, hrv⟩ hno⟩
        have hne : a' ≠ m.ctxBrk := fun ha' => hm.fresh_notin _ (ha' ▸ hget')
        rw [hlost, hlost₂]
        constructor
        · rintro ⟨(hl | hb) | hb, hbrk⟩
          · exact .inl hl
          · exact absurd hb hbrk
          · exact .inr hb
        · rintro (hl | hb)
          · exact ⟨.inl (.inl hl), hfresh b hl⟩
          · exact ⟨.inr hb, by rw [hb]; exact hne⟩

theorem receive_loses (hm : m.Ok) {msg : Bytes} (hr : m.receive h msg = .ok r) :
    Loses m (r.rv ≠ .ok ∧ ∃ n, parse msg = .ok (.ok, n) ∧ MsgType.ofCode n.type = some .hello ∧ m.contexts n.fileid = none)
      r.st := by
  obtain ⟨⟨rv, n⟩, hdec, hr⟩ := bind_returns.1 hr
  have hparse : parse msg = .ok (rv, n) := mapError_returns.1 hdec
  dsimp only at hr
  split at hr
  · rename_i hrv
    cases hr
    refine loses_none (fun hl => ?_) rfl rfl
    obtain ⟨-, n', hparse', -⟩ := hl
    rw [hparse] at hparse'
    cases hparse'
    exact hrv rfl
  · rename_i hrv
    have hrv : rv = .ok := by simpa using hrv
    rw [hrv] at hparse
    have hone : ∀ {P : Packet → Prop}, (∃ n', parse msg = .ok (.ok, n') ∧ P n') ↔ P n := fun {P} => by
      rw [hparse]
      exact ⟨fun ⟨n', hn, hp⟩ => by cases hn; exact hp, fun hp => ⟨n, rfl, hp⟩⟩
    rw [hone]
    unfold Machine.dispatch at hr
    cases ht : MsgType.ofCode n.type with
    | none =>
      rw [ht] at hr
      cases hr
      exact loses_none (fun hl => by cases hl.2.1) rfl rfl
    | some t =>
      rw [ht] at hr
      cases t with
      | hello =>
        have hloses := handleHello_loses hm hr
        exact ⟨fun hl => hloses.one ⟨hl.2.2, hl.1⟩, fun hno => hloses.none fun hl => hno ⟨hl.2, rfl, hl.1⟩⟩
      | ack =>
        cases hr
        exact loses_none (fun hl => by cases hl.2.1) rfl rfl
      | file => exact (handleFile_loses hm hr).never fun hl => by cases hl.2.1
      | fin => exact (handleFile_loses hm hr).never fun hl => by cases hl.2.1
      | giveme =>
        obtain ⟨hctxs, hfiles⟩ := handleGiveme_still hr
        exact loses_none (fun hl => by cases hl.2.1) hctxs hfiles

/-- **A stop loses the context** when its part file cannot be removed. -/
theorem protoRecvStop_loses (hm : m.Ok) {fname : Bytes} {rv : Rv} (hr : m.protoRecvStop h fname = .ok (rv, m')) :
    Loses m (rv ≠ .ok ∧ (m.contexts (nftpHash (fileBname fname))).isSome) m' := by
  unfold Machine.protoRecvStop at hr
  rcases hm.reach (nftpHash (fileBname fname)) with ⟨hnone, hfound⟩ | ⟨a, c, hsome, hfound, hlook, hat, hk, hc, hid⟩
  · simp only [hfound, onTable_ok, ok_bind, if_true] at hr
    cases hr
    exact loses_none (fun hl => by rw [hnone] at hl; cases hl.2) rfl rfl
  · obtain ⟨files, herase, -, hget⟩ := hm.files.erase_eq (nftpHash (fileBname fname))
    have hlost := lost_erase hm hget
    have hone : ∀ b, m.files.get (nftpHash (fileBname fname)) = some b ↔ b = a := fun b => by
      rw [hk, Option.some.injEq, eq_comm]
    simp only [hfound, onTable_ok, ok_bind, htFound, htNotFound, one_ne_zero, if_false, hlook, hat] at hr
    obtain ⟨path, -, hr⟩ := bind_returns.1 hr
    simp only [herase, onTable_ok, ok_bind, htSuccess, ne_eq, not_true_eq_false, if_false] at hr
    split at hr
    · rename_i hrv
      cases hr
      refine ⟨fun _ => ⟨a, not_lost_of_get hk, fun b => (hlost b).trans (or_congr_right (hone b))⟩, fun hno => ?_⟩
      exact absurd ⟨hrv, by rw [hsome]; rfl⟩ hno
    · obtain ⟨rest, -, hr⟩ := bind_returns.1 hr
      obtain ⟨m₁, hfree, hr⟩ := bind_returns.1 hr
      cases hr
      refine ⟨fun hl => absurd rfl hl.1, fun _ b => ?_⟩
      rw [lost_free hfree]
      refine (and_congr_left' ((hlost b).trans (or_congr_right (hone b)))).trans ?_
      exact ⟨fun hl => hl.1.resolve_right hl.2, fun hl => ⟨.inl hl, fun hb => not_lost_of_get hk (hb ▸ hl)⟩⟩

theorem makeHello_still {fpath fname : Bytes} {key : Int} (hr : m.makeHello h fpath fname key = .ok r) :
    r.st.ctxs = m.ctxs ∧ r.st.files = m.files := by
  unfold Machine.makeHello at hr
  dsimp only at hr
  split at hr
  · cases hr; exact ⟨rfl, rfl⟩
  split at hr
  · cases hr
  split at hr
  · cases hr; exact ⟨rfl, rfl⟩
  split at hr
  · cases hr; exact ⟨rfl, rfl⟩
  obtain ⟨-, -, hr⟩ := bind_returns.1 hr
  obtain ⟨t, -, hr⟩ := bind_returns.1 hr
  obtain ⟨⟨code, t'⟩, -, hr⟩ := bind_returns.1 hr
  dsimp only at hr
  split at hr
  · cases hr; exact ⟨rfl, rfl⟩
  obtain ⟨r', -, hr⟩ := bind_returns.1 hr
  cases hr
  exact ⟨rfl, rfl⟩

theorem maker_still_memory {fpath : Option Bytes} {t : Option MsgType} {key i : Int}
    (hr : m.protoMaker h fpath t key i = .ok r) : r.st.ctxs = m.ctxs ∧ r.st.files = m.files := by
  unfold Machine.protoMaker at hr
  split at hr
  · exact makeHello_still hr
  · obtain ⟨r', -, hr⟩ := bind_returns.1 hr
    cases hr
    exact ⟨rfl, rfl⟩

/-- The calls that lose a context, by the code they answer. -/
def Event.Leaks (e : Event) (s : State) (rv : Rv) : Prop :=
  match e with
  | .msg _ m => rv ≠ .ok ∧ ∃ n, parse m = .ok (.ok, n) ∧ MsgType.ofCode n.type = some .hello ∧ s.files n.fileid = none
  | .recvStop _ fname => rv ≠ .ok ∧ (s.files (nftpHash (fileBname fname))).isSome
  | _ => False

theorem onRest_still {x : Except Fault (Rv × State)} (hr : Machine.coded (m.onRest x) = .ok r) :
    r.st.ctxs = m.ctxs ∧ r.st.files = m.files := by
  obtain ⟨⟨rv, m'⟩, hx, hr⟩ := bind_returns.1 hr
  obtain ⟨⟨rv', rest⟩, -, hx⟩ := bind_returns.1 hx
  cases hx
  cases hr
  exact ⟨rfl, rfl⟩

/-- **A call loses one context when it leaks, and none otherwise.** -/
theorem call_loses (hm : m.Ok) {e : Event} (hr : m.call e = .ok r) : Loses m (e.Leaks m.abs r.rv) r.st := by
  cases e with
  | msg h msg => exact receive_loses hm hr
  | register fname cb arg =>
    obtain ⟨hctxs, hfiles⟩ := onRest_still hr
    exact loses_none id hctxs hfiles
  | unregister fname =>
    obtain ⟨hctxs, hfiles⟩ := onRest_still hr
    exact loses_none id hctxs hfiles
  | recvStop h fname =>
    obtain ⟨⟨rv, m'⟩, hx, hr⟩ := bind_returns.1 hr
    cases hr
    exact protoRecvStop_loses hm hx
  | maker h fpath t key i =>
    obtain ⟨hctxs, hfiles⟩ := maker_still_memory hr
    exact loses_none id hctxs hfiles
  | setRecvdir dir => cases hr; exact loses_none id rfl rfl
  | setBlocksz blksz => cases hr; exact loses_none id rfl rfl
  | disk disk => cases hr; exact loses_none id rfl rfl

instance {m : Bytes} {P : Packet → Prop} [DecidablePred P] : Decidable (∃ n, parse m = .ok (.ok, n) ∧ P n) :=
  match parse m with
  | .error _ => isFalse fun ⟨n, hn, _⟩ => by cases hn
  | .ok (rv, n) =>
    decidable_of_iff (rv = .ok ∧ P n)
      ⟨fun ⟨hrv, h⟩ => ⟨n, by rw [hrv], h⟩, fun ⟨n', hn', h⟩ => by cases hn'; exact ⟨rfl, h⟩⟩

instance (e : Event) (s : State) (rv : Rv) : Decidable (e.Leaks s rv) :=
  match e with
  | .msg _ m => inferInstanceAs (Decidable (rv ≠ .ok ∧
      ∃ n, parse m = .ok (.ok, n) ∧ MsgType.ofCode n.type = some .hello ∧ s.files n.fileid = none))
  | .recvStop _ fname => inferInstanceAs (Decidable (rv ≠ .ok ∧ (s.files (nftpHash (fileBname fname))).isSome))
  | .register .. => isFalse id
  | .unregister _ => isFalse id
  | .maker .. => isFalse id
  | .setRecvdir _ => isFalse id
  | .setBlocksz _ => isFalse id
  | .disk _ => isFalse id

/-! ## How many are lost -/

open Classical in
/-- The contexts lost. -/
noncomputable def Machine.lost (m : Machine) : Finset Addr := (Finset.range m.ctxBrk).filter m.Lost

theorem mem_lost (hm : m.Ok) : a ∈ m.lost ↔ m.Lost a := by
  classical
  rw [Machine.lost, Finset.mem_filter, Finset.mem_range, and_iff_right_iff_imp]
  intro hl
  by_contra hlt
  have hsome := hl.1
  rw [hm.fresh a (Nat.le_of_not_lt hlt)] at hsome
  cases hsome

theorem Loses.card {loses : Prop} [Decidable loses] (hm : m.Ok) (hm' : m'.Ok) (h : Loses m loses m') :
    m'.lost.card = m.lost.card + if loses then 1 else 0 := by
  by_cases hl : loses
  · obtain ⟨a, ha, hlost⟩ := h.one hl
    have hset : m'.lost = insert a m.lost := by
      ext b
      rw [mem_lost hm', hlost, Finset.mem_insert, mem_lost hm, or_comm]
    rw [hset, Finset.card_insert_of_notMem (fun hmem => ha ((mem_lost hm).1 hmem)), if_pos hl]
  · have hset : m'.lost = m.lost := by
      ext b
      rw [mem_lost hm', h.none hl, mem_lost hm]
    rw [hset, if_neg hl]
    rfl

end Nftp
