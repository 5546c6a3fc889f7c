import Nftp.Ending
import Nftp.Fileid
import Nftp.Names
import Nftp.Records
/-!
# Stop — a transfer stopped halfway

`nftp_proto_recv_stop` looks the transfer up by the hash of its name, and its part file by the name it is saved under.
`stop_undoes` says what a stop that returns 0 leaves: nothing of the transfer, the others as they were, and room for the
next HELLO, whose delivery depends on nothing received before.
-/
namespace Nftp

open Lib

variable {h : Host} {s s' : State} {n n' : Packet} {msg hello f : Bytes} {r : Ret} {c : Nctx}

/-! ## What is left of the transfer -/

/-- No HELLO under the name's file id. -/
def Event.NoHello (f : Bytes) : Event → Prop
  | .msg _ m => ∀ n, parse m = .ok (.ok, n) → MsgType.ofCode n.type = some .hello → nftpHash n.name ≠ nftpHash f
  | _ => True

/-- There is no transfer of the name: its status, its blocks and its next HELLO are answered so. -/
structure Absent (f : Bytes) (s : State) : Prop where
  files : s.files (nftpHash f) = none
  status : ∀ fpath, fileBname fpath = f → protoRecvStatus s fpath = (.ht, none, -1)
  block : ∀ h msg n, parse msg = .ok (.ok, n) → n.IsBlock → n.fileid = nftpHash f →
    receive h s msg = .ok ⟨.ht, none, 0, s⟩
  accepts : ∀ hello n', parse hello = .ok (.ok, n') → MsgType.ofCode n'.type = some .hello → n'.name = f →
    (Accepts s hello n' ↔ s.files 0 = none ∧ HasRoom s.recvdir s.Free f)

theorem absent_iff (hi : Inv s) : Absent f s ↔ s.files (nftpHash f) = none := by
  refine ⟨Absent.files, fun hnone => ⟨hnone, fun fpath hf => ?_, fun h msg n hp hblock hid => ?_, ?_⟩⟩
  · rw [protoRecvStatus, hf, hnone]
  · rw [receive_block hp hblock, handleFile, hid, hnone]
    rfl
  · intro hello n' hp ht hname
    rw [accepts_iff hi hp ht, hname, hnone]
    exact ⟨fun h' => ⟨h'.1, h'.2.2⟩, fun h' => ⟨h'.1, rfl, h'.2⟩⟩

theorem step_absent {e : Event} (hi : Inv s) (hs : Step s e s') (he : e.NoHello f) (hnone : s.files (nftpHash f) = none) :
    s'.files (nftpHash f) = none := by
  rcases step_cases hi hs with ⟨h, m, r, rfl, hr, rfl⟩ | ⟨-, hq⟩
  · rcases receive_kinds hr with ⟨hst, -⟩ | ⟨n, hp, ht, hr'⟩ | ⟨n, b, -, -, hb, hl, hr'⟩
    · rw [hst]
      exact hnone
    · rw [(handleHello_effect hi hr').files _ (Ne.symm (he n hp ht))]
      exact hnone
    · cases hc : r.st.files (nftpHash f) with
      | none => rfl
      | some c' =>
        obtain ⟨c, hc', -⟩ := handleFile_wfname hi hb hl hr' hc
        rw [hnone] at hc'
        cases hc'
  · exact hq.files_none hnone

/-- What a stop leaves of the transfer `c` of the name: nothing, also later on; the rest is as it was. -/
structure Undone (f : Bytes) (s : State) (c : Nctx) (s' : State) : Prop where
  absent : ∀ es t, Run (fun s e s' => Step s e s' ∧ e.NoHello f) s' es t → Absent f t
  part : s'.fs.disk (s'.part c.wfname) = none
  disk : ∀ q, q ≠ s.part c.wfname → s'.fs.disk q = s.fs.disk q
  files : ∀ g, g ≠ nftpHash f → s'.files g = s.files g
  calls : s'.calls = s.calls
  /-- no record goes but the transfer's own, and never the default one -/
  heap : ∀ a rcd, s.heap a = some rcd → s'.heap a = some rcd ∨ s'.heap a = none ∧ c.fcb = some a ∧ rcd.fname ≠ star
  others : ∀ g c', g ≠ nftpHash f → s.files g = some c' →
    (∀ a, c'.fcb = some a → s'.heap a = s.heap a ∧ (a ∈ s'.regs ↔ a ∈ s.regs)) ∧
    s'.fs.disk (s'.part c'.wfname) = s.fs.disk (s.part c'.wfname)

/-- **A stop that returns 0 undoes the transfer of the name.** -/
theorem recvStop_undone (hi : Inv s) (hown : fileBname f = f) (hc : s.files (nftpHash f) = some c)
    (hapart : ∀ g c', g ≠ nftpHash f → s.files g = some c' → FilesApart s c.wfname c'.wfname)
    (hr : protoRecvStop h s f = .ok (.ok, s')) : Undone f s c s' := by
  have hi' : Inv s' := (recvStop_quiet hi hr).inv hi
  rcases recvStop_cases hi.reg hr with ⟨-, hrv, -⟩ | ⟨c₀, hc₀, -, ⟨hrv, -⟩ | ⟨-, -, -, hreg, -, hs', hheap⟩⟩
  · cases hrv
  · exact absurd rfl hrv
  rw [hown] at hc₀ hs'
  rw [hc] at hc₀
  cases hc₀
  have hfiles : s'.files = htErase s.files (nftpHash f) := (congrArg State.files hs').trans rfl
  have hdir : s'.recvdir = s.recvdir := (congrArg State.recvdir hs').trans rfl
  have hdisk : s'.fs.disk = Function.update s.fs.disk (s.part c.wfname) none := (congrArg (·.fs.disk) hs').trans rfl
  have hnone : s'.files (nftpHash f) = none := by rw [hfiles]; exact Function.update_self ..
  refine ⟨fun es t hrun => ?_, ?_, fun q hq => ?_, fun g hg => ?_, (congrArg State.calls hs').trans rfl,
    fun a rcd hrcd => ?_, fun g c' hg hc' => ⟨fun a ha => ?_, ?_⟩⟩
  · obtain ⟨hit, ht⟩ : Inv t ∧ t.files (nftpHash f) = none :=
      Run.invariant (I := fun t => Inv t ∧ t.files (nftpHash f) = none)
        (fun s e s' hs he => ⟨step_inv hs.1 he.1, step_absent hs.1 he.1 he.2 hs.2⟩) hrun ⟨hi', hnone⟩
    exact (absent_iff hit).2 ht
  · rw [hdisk, part_congr hdir]
    exact Function.update_self ..
  · rw [hdisk]
    exact Function.update_of_ne hq _ _
  · rw [hfiles]
    exact Function.update_of_ne hg _ _
  · rw [hheap]
    by_cases hrel : c.fcb = some a ∧ ∃ r, s.heap a = some r ∧ r.fname ≠ star
    · obtain ⟨ha, rcd', hrcd', hns⟩ := hrel
      rw [if_pos ⟨ha, rcd', hrcd', hns⟩]
      rw [hrcd] at hrcd'
      cases hrcd'
      exact .inr ⟨rfl, ha, hns⟩
    · rw [if_neg hrel]
      exact .inl hrcd
  · -- a record both are bound to is the default one
    have hkeep : s'.heap a = s.heap a := by
      rw [hheap, if_neg]
      rintro ⟨ha', rcd, hrcd, hns⟩
      exact hg (hi.record_key hc' ha hc ha' hrcd hns)
    exact ⟨hkeep, by rw [hreg.mem_iff, hi.reg.mem_iff, hkeep]⟩
  · rw [hdisk, part_congr hdir]
    exact Function.update_of_ne (hapart g c' hg hc').paths.1 _ _

/-! ## Room for the next HELLO -/

/-- The call leaves the transfer of the name its names: a HELLO under its file id is of the name, other messages concern
names apart, and who changes the directory or the disk makes no file of the name it is saved under. -/
def Event.Leaves (f : Bytes) (s : State) : Event → Prop
  | .msg _ m => ∀ n, parse m = .ok (.ok, n) →
      (n.key = some (nftpHash f) → MsgType.ofCode n.type = some .hello → n.name = f) ∧
      (n.key ≠ some (nftpHash f) → ∀ c v, s.files (nftpHash f) = some c → Concerns s n v → FilesApart s v c.wfname)
  | .setRecvdir dir => ∀ c, s.files (nftpHash f) = some c → (Nftp.setRecvdir s dir).Free c.wfname
  | .disk d => ∀ c, s.files (nftpHash f) = some c →
      d (s.final c.wfname) = s.fs.disk (s.final c.wfname) ∧ d (s.part c.wfname) = s.fs.disk (s.part c.wfname)
  | _ => True

/-- The name is one a HELLO of `f` may pick, and is free unless the part file was renamed to it. -/
structure SavedAs (f : Bytes) (s : State) (w : Bytes) : Prop where
  name : w = f ∨ ∃ j, 1 ≤ j ∧ j < 100 ∧ w = numbered f j
  free : s.Free w ∨ s.fs.disk (s.part w) = none

theorem SavedAs.shrinks {w : Bytes} (hw : SavedAs f s w) (hdir : s'.recvdir = s.recvdir)
    (hfinal : s'.fs.disk (s.final w) = s.fs.disk (s.final w) ∨ s'.fs.disk (s.final w) = none)
    (hpart : s'.fs.disk (s.part w) = s.fs.disk (s.part w) ∨ s'.fs.disk (s.part w) = none) : SavedAs f s' w := by
  refine ⟨hw.name, ?_⟩
  rw [State.Free, final_congr hdir, part_congr hdir]
  rcases hw.free with hfree | hnone
  · left
    rcases hfinal with h' | h'
    · exact h'.trans hfree
    · exact h'
  · right
    rcases hpart with h' | h'
    · exact h'.trans hnone
    · exact h'

/-- The transfer of the name, if there is one, is saved under a name of it. -/
def Placed (f : Bytes) (s : State) : Prop := ∀ c, s.files (nftpHash f) = some c → SavedAs f s c.wfname

theorem handleHello_placed (hi : Inv s) (hp : Placed f s) (hname : n.name = f) (hr : handleHello h s n = .ok r) :
    Placed f r.st := by
  subst hname
  rcases handleHello_cases hi.reg hr with ⟨-, rfl⟩ | ⟨-, a, s₁, w, path, -, hb, hpick, hpath, hcase⟩
  · exact hp
  have hdir : s₁.recvdir = s.recvdir := (congrArg State.recvdir hb.eq).trans rfl
  have hfs : s₁.fs = s.fs := (congrArg State.fs hb.eq).trans rfl
  obtain ⟨rfl, -⟩ := partPath_eq_ok hpath
  rcases hcase with ⟨-, rfl⟩ | ⟨-, rv, rmsg, rlen, -, rfl⟩
  · intro c hc
    rw [show s₁.files = s.files from (congrArg State.files hb.eq).trans rfl] at hc
    exact (hp c hc).shrinks hdir (.inl (by rw [hfs])) (.inl (by rw [hfs]))
  · intro c hc
    replace hc : Function.update s.files (nftpHash n.name) (some (helloCtx n a w)) (nftpHash n.name) = some c := hc
    rw [Function.update_self] at hc
    cases hc
    obtain ⟨hform, hfree⟩ := pickName_ok hpick
    refine ⟨hform, .inl ?_⟩
    show (s.fs.created (s.part w)).disk (s₁.final w) = none
    rw [final_congr hdir, created_ne s.fs (part_ne_final s w).symm]
    exact hfree

theorem handleFile_placed (hi : Inv s) (hp : Placed f s) (hid : n.fileid = nftpHash f) {b : Bytes}
    (hb : n.content = some b) (hl : b.length = n.ctlen) (hr : handleFile h s n = .ok r) : Placed f r.st := by
  intro c' hc'
  obtain ⟨c, hc, hw⟩ := handleFile_wfname hi hb hl hr hc'
  have hdir := (handleFile_effect hi hb hl hr).recvdir
  have hsaved := hp c hc
  rw [← hw]
  rw [← hid] at hc
  obtain ⟨c₁, fs', -, happ, hcase⟩ := handleFile_outcome hi hb hl hc hr
  have hkeep : r.st.fs = fs' → SavedAs f r.st c.wfname := by
    intro hfs
    refine ⟨hsaved.name, ?_⟩
    rw [State.Free, final_congr hdir, part_congr hdir, hfs]
    exact happ.free hsaved.free
  rcases hcase with ⟨-, hst⟩ | ⟨-, -, -, hst⟩ | ⟨-, old, -, -, -, hfs, -⟩
  · exact hkeep (by rw [hst])
  · exact hkeep (by rw [hst])
  · -- the part file was renamed
    refine ⟨hsaved.name, .inr ?_⟩
    rw [part_congr hdir, hfs]
    exact renamed_src fs' (part_ne_final s _) _

/-- A message to another file id. -/
theorem effect_placed {key : UInt32} (hp : Placed f s) (hkey : key ≠ nftpHash f) (he : Effect s key (Concerns s n) r.st)
    (hapart : ∀ c v, s.files (nftpHash f) = some c → Concerns s n v → FilesApart s v c.wfname) : Placed f r.st := by
  intro c hc
  rw [he.files _ (Ne.symm hkey)] at hc
  refine (hp c hc).shrinks he.recvdir (.inl (he.disk _ fun v hv => ?_)) (.inl (he.disk _ fun v hv => ?_))
  · obtain ⟨-, -, h3, h4⟩ := (hapart c v hc hv).paths
    exact ⟨h3, h4⟩
  · obtain ⟨h1, h2, -, -⟩ := (hapart c v hc hv).paths
    exact ⟨h1, h2⟩

theorem step_placed {e : Event} (hi : Inv s) (hp : Placed f s) (hs : Step s e s') (he : e.Leaves f s) : Placed f s' := by
  -- the calls that only take away
  have hquiet : (∀ h m, e ≠ .msg h m) → e.Local → Placed f s' := by
    intro hmsg hl c hc
    obtain ⟨hdir, hdisk⟩ := step_shrinks hi hs hmsg hl
    exact (hp c ((step_quiet hi hs hmsg).files _ c hc)).shrinks hdir (hdisk _) (hdisk _)
  cases e with
  | msg h m =>
    obtain ⟨r, hr, hs⟩ := bind_eq_ok.1 hs
    cases hs
    rcases receive_effect hi hr with hst | ⟨n, key, hparse, hkey, heff⟩
    · rw [hst]
      exact hp
    obtain ⟨hname, hapart⟩ := he n hparse
    by_cases hk : key = nftpHash f
    · subst hk
      rcases receive_kinds hr with ⟨hst, -⟩ | ⟨n₁, hparse₁, ht, hr'⟩ | ⟨n₁, b, hparse₁, hblock, hb, hl, hr'⟩
      · rw [hst]
        exact hp
      · rw [hparse] at hparse₁
        cases hparse₁
        exact handleHello_placed hi hp (hname hkey ht) hr'
      · rw [hparse] at hparse₁
        cases hparse₁
        rw [hblock.key_eq] at hkey
        exact handleFile_placed hi hp (Option.some.inj hkey) hb hl hr'
    · exact effect_placed hp hk heff (hapart (by rw [hkey]; exact fun h' => hk (Option.some.inj h')))
  | register fname cb arg => exact hquiet nofun trivial
  | unregister fname => exact hquiet nofun trivial
  | recvStop h fname => exact hquiet nofun trivial
  | maker h fpath t key n => exact hquiet nofun trivial
  | setRecvdir dir =>
    cases hs
    exact fun c hc => ⟨(hp c hc).name, .inl (he c hc)⟩
  | setBlocksz blksz => exact hquiet nofun trivial
  | disk disk =>
    cases hs
    exact fun c hc => (hp c hc).shrinks rfl (.inl (he c hc).1) (.inl (he c hc).2)

/-- A name of `f` that is free and fits is room for a HELLO of `f`. -/
theorem SavedAs.hasRoom {w : Bytes} (hw : SavedAs f s w) (hfree : s.Free w) (hfits : NameFits s.recvdir w) :
    HasRoom s.recvdir s.Free f := by
  rcases hw.name with rfl | ⟨j, h1, h2, rfl⟩
  · exact .inl ⟨hfree, hfits⟩
  · by_cases hown : s.Free f
    · refine .inl ⟨hown, ?_⟩
      obtain ⟨hp, hq⟩ := hfits
      rw [numbered_length] at hp hq
      exact ⟨by omega, by omega⟩
    · exact .inr ⟨hown, (nameFits_congr (by rw [numbered_length, numbered_length])).1 hfits, j, h1, h2, hfree⟩

/-! ## The next transfer -/

/-- The HELLO is answered the same by both receivers, and the blocks of its file deliver the same to both: the transfers
differ in their records only. -/
def DeliverAlike (s v : State) (hello : Bytes) (n' : Packet) : Prop :=
  ∃ r r', receive .good s hello = .ok r ∧ receive .good v hello = .ok r' ∧ r'.rv = r.rv ∧ r'.rmsg = r.rmsg ∧
    r'.rlen = r.rlen ∧
    ∀ blocks : List Bytes, 0 < blocks.length → n'.blocks.toNat = blocks.length → n'.hashcode = nftpHash blocks.flatten →
      ∃ (t : Transfer) (a : Addr) (rcd : FileCb), t.fileid = nftpHash n'.name ∧ t.blocks = blocks ∧ t.Delivers r.st ∧
        Transfer.Delivers { t with fcb := a, record := rcd } r'.st

/-- **Two receivers with the same names free deliver alike**, whatever either received before. -/
theorem deliver_alike {v : State} (hi : Inv s) (hv : Inv v) (hp : parse hello = .ok (.ok, n'))
    (ht : MsgType.ofCode n'.type = some .hello) (hdir : v.recvdir = s.recvdir) (hfree : ∀ w, v.Free w ↔ s.Free w)
    (hs : Accepts s hello n') (ha : Accepts v hello n') : DeliverAlike s v hello n' := by
  obtain ⟨r, hr, hrv, hrmsg, hrlen, -⟩ := hs
  obtain ⟨r', hr', hrv', hrmsg', hrlen', -⟩ := ha
  obtain ⟨-, -, -, w, a, rcd, c, hpick, -, -, hall⟩ := hello_holds hi hp ht hr hrv
  obtain ⟨-, -, -, w', a', rcd', c', hpick', -, -, hall'⟩ := hello_holds hv hp ht hr' hrv'
  rw [pickName_congr hdir hfree, hpick] at hpick'
  cases hpick'
  refine ⟨r, r', hr, hr', hrv'.trans hrv.symm, hrmsg'.trans hrmsg.symm, hrlen'.trans hrlen.symm, fun blocks hpos hN hhash => ?_⟩
  exact ⟨⟨nftpHash n'.name, w, a, rcd, blocks⟩, a', rcd', rfl, rfl,
    (hall blocks hN hhash).delivers (receive_inv hi hr) hpos, (hall' blocks hN hhash).delivers (receive_inv hv hr') hpos⟩

/-- The HELLO starts the transfer of its file anew, as in any other receiver that has the same names free. -/
structure Restarts (s : State) (hello : Bytes) (n' : Packet) : Prop where
  accepts : Accepts s hello n'
  alike : ∀ v, Live v → v.recvdir = s.recvdir → (∀ w, v.Free w ↔ s.Free w) → Accepts v hello n' →
    DeliverAlike s v hello n'

/-- **Stopping a transfer is a clean undo**, and when its names were left to it, the next HELLO of the name starts anew. -/
theorem stop_undoes (hl : Live s) (hcs : cstr f = f) (hf : slash ∉ f) (h0 : s.files 0 = none)
    (hc : s.files (nftpHash f) = some c)
    (hapart : ∀ g c', g ≠ nftpHash f → s.files g = some c' → FilesApart s c.wfname c'.wfname)
    (hr : protoRecvStop h s f = .ok (.ok, s')) :
    Undone f s c s' ∧
    (Reachable Booted (fun s e s' => Step s e s' ∧ e.Leaves f s) s → ∀ hello n', parse hello = .ok (.ok, n') →
      MsgType.ofCode n'.type = some .hello → n'.name = f → Restarts s' hello n') := by
  have hne : f ≠ [] := by
    rintro rfl
    rw [show nftpHash [] = 0 from rfl, h0] at hc
    cases hc
  have hown : fileBname f = f := fileBname_own hcs (.inr ⟨hne, hf⟩)
  have hi := hl.inv
  have hund := recvStop_undone hi hown hc hapart hr
  refine ⟨hund, fun hleft hello n' hp ht hname => ?_⟩
  have hi' : Inv s' := (recvStop_quiet hi hr).inv hi
  have habs := hund.absent [] s' .refl
  obtain ⟨-, hplaced⟩ : Inv s ∧ Placed f s := by
    refine Reachable.invariant (I := fun s => Inv s ∧ Placed f s) (fun s hb => ⟨booted_inv hb, fun c hc => ?_⟩)
      (fun s e s' hs he => ⟨step_inv hs.1 he.1, step_placed hs.1 hs.2 he.1 he.2⟩) hleft
    rw [booted_files hb] at hc
    cases hc
  -- the part file was there, so nothing has its name
  have hroom : HasRoom s'.recvdir s'.Free f := by
    rcases recvStop_cases hi.reg hr with ⟨-, hrv, -⟩ | ⟨c₀, hc₀, hfits, ⟨hrv, -⟩ | ⟨-, hsome, -, -, -, hs', -⟩⟩
    · cases hrv
    · exact absurd rfl hrv
    rw [hown, hc] at hc₀
    cases hc₀
    have hdir : s'.recvdir = s.recvdir := (congrArg State.recvdir hs').trans rfl
    have hsaved := hplaced c hc
    have hfree : s.Free c.wfname := by
      refine hsaved.free.resolve_right fun hnone => ?_
      rw [hnone] at hsome
      cases hsome
    have hfree' : s'.Free c.wfname := by
      rw [State.Free, final_congr hdir, hund.disk _ (part_ne_final s _).symm]
      exact hfree
    refine SavedAs.hasRoom ⟨hsaved.name, .inl hfree'⟩ hfree' ?_
    rw [hdir]
    exact hfits
  have h0' : s'.files 0 = none := by
    by_cases hk : 0 = nftpHash f
    · rw [hk]
      exact habs.files
    · rw [hund.files 0 hk]
      exact h0
  have hacc : Accepts s' hello n' := (habs.accepts hello n' hp ht hname).2 ⟨h0', hroom⟩
  exact ⟨hacc, fun v hv hvdir hvfree hva => deliver_alike hi' hv.inv hp ht hvdir hvfree hacc hva⟩

/-! ## A run that computes -/

/-- A message about the transfer of the name, or no message the handler acts on. -/
def Event.Own (f : Bytes) : Event → Prop
  | .msg _ m => ∀ n, parse m = .ok (.ok, n) → n.key = some (nftpHash f) ∧ (MsgType.ofCode n.type = some .hello → n.name = f)
  | _ => False

instance (f : Bytes) (e : Event) : Decidable (e.Own f) :=
  match e with
  | .msg _ m => inferInstanceAs (Decidable (∀ n, parse m = .ok (.ok, n) → _))
  | .register .. => isFalse id
  | .unregister _ => isFalse id
  | .recvStop .. => isFalse id
  | .maker .. => isFalse id
  | .setRecvdir _ => isFalse id
  | .setBlocksz _ => isFalse id
  | .disk _ => isFalse id

theorem Event.Own.leaves {e : Event} (he : e.Own f) (s : State) : e.Leaves f s := by
  cases e with
  | msg h m => exact fun n hp => ⟨fun _ => (he n hp).2, fun hne => absurd (he n hp).1 hne⟩
  | _ => cases he

/-- The messages about one transfer start no other. -/
theorem step_alone {e : Event} (hi : Inv s) (hs : Step s e s') (he : e.Own f)
    (halone : ∀ g, g ≠ nftpHash f → s.files g = none) : ∀ g, g ≠ nftpHash f → s'.files g = none := by
  cases e with
  | msg h m =>
    intro g hg
    obtain ⟨r, hr, hs⟩ := bind_eq_ok.1 hs
    cases hs
    rcases receive_effect hi hr with hst | ⟨n, key, hp, hkey, heff⟩
    · rw [hst]
      exact halone g hg
    · rw [(he n hp).1] at hkey
      cases hkey
      rw [heff.files g hg]
      exact halone g hg
  | _ => cases he

/-- The HELLO of a file of two blocks, its second block, then the stop; and a HELLO of another file of that name. -/
theorem stop_undoes_one : ∃ s s' c n', Live s ∧ s.files (nftpHash [0x66]) = some c ∧ c.entries = [⟨none, 0⟩, ⟨some [2], 1⟩] ∧
    protoRecvStop .good s [0x66] = .ok (.ok, s') ∧ Undone [0x66] s c s' ∧
    parse (helloBytes 0 1 [0x66] (nftpHash [7])) = .ok (.ok, n') ∧
    Restarts s' (helloBytes 0 1 [0x66] (nftpHash [7])) n' := by
  obtain ⟨n', hp', ht', hname, -⟩ := parse_helloBytes 0 1 (nftpHash [7]) (show [0x66].length < 2 ^ 16 by decide) rfl
  obtain ⟨s₀, s, hb, hrun, c, hc, hentries, h0, s', hstop, -⟩ := trace_sound (fun _ e => e.Own [0x66]) none 1 .empty
    [.msg .good (helloBytes 0 2 [0x66] (nftpHash [1, 2])), .msg .good (fileBytes [0x66] 1 [2])]
    (fun s => ∃ c, s.files (nftpHash [0x66]) = some c ∧ c.entries = [⟨none, 0⟩, ⟨some [2], 1⟩] ∧ s.files 0 = none ∧
      ∃ s', protoRecvStop .good s [0x66] = .ok (.ok, s') ∧ s'.files 0 = none) (by decide +kernel)
  have hl : Live s := ⟨s₀, _, hb, hrun.mono fun _ _ _ he => he.1⟩
  have hleft : Reachable Booted (fun s e s' => Step s e s' ∧ e.Leaves [0x66] s) s :=
    ⟨s₀, _, hb, hrun.mono fun s e s' he => ⟨he.1, he.2.leaves s⟩⟩
  obtain ⟨-, halone⟩ : Inv s ∧ ∀ g, g ≠ nftpHash [0x66] → s.files g = none :=
    Run.invariant (I := fun s => Inv s ∧ ∀ g, g ≠ nftpHash [0x66] → s.files g = none)
      (fun s e s' hs he => ⟨step_inv hs.1 he.1, step_alone hs.1 he.1 he.2 hs.2⟩) hrun
      ⟨booted_inv hb, fun g _ => by rw [booted_files hb]⟩
  obtain ⟨hund, hre⟩ := stop_undoes hl (show cstr [0x66] = [0x66] from rfl) (by decide) h0 hc
    (fun g c' hg hc' => by rw [halone g hg] at hc'; cases hc') hstop
  exact ⟨s, s', c, n', hl, hc, hentries, hstop, hund, hp', hre hleft _ n' hp' ht' hname⟩

end Nftp
