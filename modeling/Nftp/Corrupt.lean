import Nftp.Failure
import Nftp.Checksum
/-!
# Corrupt — a file that is not the one announced

CRC-32C tells apart two strings that differ within four bytes.  So a transfer whose blocks make up such a string is never
published: once its last block is in, every call for it fails at the rename or at the check, and its context stays
(`Transfer.Stuck`).
-/
namespace Nftp

open Lib

variable {h : Host} {s s' s₁ : State} {n : Packet} {msg : Bytes} {r : Ret} {c c' : Nctx} {t : Transfer} {hashcode : UInt32}

/-- Every block of the transfer is in, and it is not the file announced: the part file holds them all, or is renamed. -/
structure Transfer.Stuck (t : Transfer) (hashcode : UInt32) (s : State) (c : Nctx) : Prop where
  files : s.files t.fileid = some c
  cap : c.cap = t.blocks.length
  next : c.nextid = t.blocks.length
  wfname : c.wfname = t.wfname
  hashcode : c.hashcode = hashcode
  part : s.fs.disk (s.part t.wfname) = some t.blocks.flatten ∨ s.fs.disk (s.part t.wfname) = none

theorem Transfer.Stuck.aside (hh : t.Stuck hashcode s c) (ha : Aside s t s') : t.Stuck hashcode s' c where
  files := ha.files.trans hh.files
  cap := hh.cap
  next := hh.next
  wfname := hh.wfname
  hashcode := hh.hashcode
  part := by rw [part_congr ha.recvdir, ha.part]; exact hh.part

/-- **A block that leaves no other missing is refused**, the file not being the one announced. -/
theorem Transfer.refuses {fs' : Fs} (hi : Inv s) (hc : s.files n.fileid = some c) (hid : n.fileid = t.fileid)
    (hw : c.wfname = t.wfname) (hcap : c.cap = t.blocks.length) (hhash : c.hashcode ≠ nftpHash t.blocks.flatten)
    (hstore : storeBlock h (s.part c.wfname) c s.fs n = .ok (.ok, c', fs')) (hsame : c.Same c') (hend : c'.nextid = c'.cap)
    (hpart : fs'.disk (s.part t.wfname) = some t.blocks.flatten ∨ fs'.disk (s.part t.wfname) = none)
    (hr : handleFile h s n = .ok r) : r.rv ≠ .ok ∧ r.st.calls = s.calls ∧ t.Stuck c.hashcode r.st c' := by
  have hok := hi.ctx _ c hc
  obtain ⟨a, ha, -⟩ := hok.fcb
  rcases handleFile_cases hr with ⟨hc', -⟩ | ⟨d, path, rv, d', fs'', hd, hpath, hstore', hcase⟩
  · rw [hc] at hc'
    cases hc'
  rw [hc] at hd
  cases hd
  obtain ⟨rfl, -⟩ := partPath_eq_ok hpath
  rw [hstore] at hstore'
  cases hstore'
  rcases hcase with ⟨hno, -⟩ | ⟨-, -, hfin⟩
  · exact absurd hend (hno.resolve_left fun hne => hne rfl)
  have hreg : RegOk { s with files := Function.update s.files n.fileid (some c'), fs := fs' } := hi.reg.of_eq rfl rfl rfl
  rw [← hsame.wfname] at hfin
  have hw' : c'.wfname = t.wfname := hsame.wfname.trans hw
  have hstuck : ∀ {st : State}, st.files = Function.update s.files n.fileid (some c') →
      (st.fs.disk (st.part t.wfname) = some t.blocks.flatten ∨ st.fs.disk (st.part t.wfname) = none) →
      t.Stuck c.hashcode st c' := fun hfiles hp =>
    ⟨by rw [hfiles, hid]; exact Function.update_self .., hsame.cap.trans hcap, hend.trans (hsame.cap.trans hcap), hw',
      hsame.hashcode, hp⟩
  rcases finish_outcome hreg (hsame.fcb.trans ha) hfin with ⟨-, hrv, hst⟩ | ⟨content, hd, -, hdir, hfs, hcheck⟩
  · exact ⟨hrv, by rw [hst], hstuck (by rw [hst]) (by rw [hst]; exact hpart)⟩
  · have hcontent : content = t.blocks.flatten := by
      rw [hw'] at hd
      replace hd : fs'.disk (s.part t.wfname) = some content := hd
      rcases hpart with hp | hp <;> rw [hp] at hd <;> cases hd
      rfl
    rcases hcheck with ⟨-, hrv, hfiles, hcalls⟩ | ⟨hyes, -⟩
    · refine ⟨hrv, hcalls, hstuck hfiles (.inr ?_)⟩
      rw [part_congr hdir, hfs, hw']
      exact renamed_src _ (part_ne_final _ _) _
    · have heq := hyes.2.2
      rw [hcontent, hsame.hashcode] at heq
      exact absurd heq.symm hhash

/-- A block that comes once the transfer is stuck. -/
theorem Transfer.Stuck.block (hi : Inv s) (hh : t.Stuck hashcode s c) (hhash : hashcode ≠ nftpHash t.blocks.flatten) {k : ℕ}
    (hmsg : BlockOf t.fileid t.blocks k msg) (hr : receive h s msg = .ok r) :
    r.rv ≠ .ok ∧ r.st.calls = s.calls ∧ ∃ c', t.Stuck hashcode r.st c' := by
  obtain ⟨hk, n, hp, hblock, hid, hseq, -⟩ := hmsg
  obtain ⟨b, hb, hn⟩ := parse_file hp hblock
  have hfiles : s.files n.fileid = some c := by rw [hid]; exact hh.files
  have hw := (hi.ctx _ c hfiles).toWf
  have hlt : n.blockseq.toNat < c.entries.length := by rw [hw.length, hh.cap, hseq]; exact hk
  have hne : n.blockseq.toNat ≠ c.nextid := by rw [hh.next, hseq]; exact Nat.ne_of_lt hk
  have hstore := storeBlock_cache h (s.part c.wfname) s.fs hne (List.getElem?_eq_getElem hlt)
  obtain ⟨-, hsame, -⟩ := storeBlock_keeps hw hb hn hstore
  rw [receive_block hp hblock] at hr
  obtain ⟨hrv, hcalls, hst⟩ := Transfer.refuses hi hfiles hid hh.wfname hh.cap (by rw [hh.hashcode]; exact hhash) hstore hsame
    (hh.next.trans hh.cap.symm) hh.part hr
  rw [hh.hashcode] at hst
  exact ⟨hrv, hcalls, _, hst⟩

/-! ## Runs -/

/-- The transfer has not ended and will not. -/
def Transfer.Unending (t : Transfer) (hashcode : UInt32) (s₁ s : State) : Prop :=
  Inv s ∧ t.callsIn s = t.callsIn s₁ ∧ ∃ c, t.Loose hashcode s c ∨ t.Stuck hashcode s c

/-- **A block of the transfer** is answered with 0 only while others are missing, and runs no callback. -/
theorem Transfer.Unending.block (hu : t.Unending hashcode s₁ s) (hhash : hashcode ≠ nftpHash t.blocks.flatten) {k : ℕ}
    (hmsg : BlockOf t.fileid t.blocks k msg)
    (hclean : ∀ c, s.files t.fileid = some c → Clean h (t.blocks.getD k [] :: c.run)) (hr : receive h s msg = .ok r) :
    r.st.calls = s.calls ∧ (∃ c, t.Loose hashcode r.st c ∧ r.rmsg = none) ∨
    r.st.calls = s.calls ∧ ∃ c, t.Stuck hashcode r.st c ∧ r.rv ≠ .ok := by
  obtain ⟨hi, -, c, hh | hh⟩ := hu
  · rcases hh.block hi hmsg (hclean c hh.files) with ⟨rv, s', c', hr', hh', -, hcalls, -⟩ |
      ⟨n, c', fs', hrun, hid, hstore, hsame, hcap, hpart⟩
    · rw [hr'] at hr
      cases hr
      exact .inl ⟨hcalls, c', hh', rfl⟩
    · rw [hrun] at hr
      obtain ⟨hrv, hcalls, hst⟩ := Transfer.refuses hi (by rw [hid]; exact hh.files) hid hh.wfname hh.cap
        (by rw [hh.hashcode]; exact hhash) hstore hsame hcap (.inl hpart) hr
      rw [hh.hashcode] at hst
      exact .inr ⟨hcalls, c', hst, hrv⟩
  · obtain ⟨hrv, hcalls, c', hst⟩ := hh.block hi hhash hmsg hr
    exact .inr ⟨hcalls, c', hst, hrv⟩

theorem Transfer.Unending.step {x : Option ℕ} (hu : t.Unending hashcode s₁ s) (hhash : hashcode ≠ nftpHash t.blocks.flatten)
    (hx : t.ArrivesWith Clean s x s') : t.Unending hashcode s₁ s' := by
  obtain ⟨h, msg, r, hr, rfl, hx⟩ := hx
  refine ⟨receive_inv hu.1 hr, ?_⟩
  cases x with
  | none =>
    have ha := receive_aside t hu.1 hx hr
    obtain ⟨-, hcalls, c, hh⟩ := hu
    exact ⟨ha.calls.trans hcalls, c, hh.imp (fun hl => hl.aside ha) fun hs => hs.aside ha⟩
  | some k =>
    have hsame : r.st.calls = s.calls → t.callsIn r.st = t.callsIn s₁ := by
      intro hcalls
      rw [Transfer.callsIn, hcalls]
      exact hu.2.1
    rcases hu.block hhash hx.1 hx.2 hr with ⟨hcalls, c, hh, -⟩ | ⟨hcalls, c, hh, -⟩
    · exact ⟨hsame hcalls, c, .inl hh⟩
    · exact ⟨hsame hcalls, c, .inr hh⟩

end Nftp
