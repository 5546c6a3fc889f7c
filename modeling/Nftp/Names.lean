import Nftp.Publish
/-!
# Names — concurrent transfers on disk

The name a HELLO picks is tested against the files that are there, not against the names of the transfers in progress.
`run_apart` says what holds as long as the names are plain and no HELLO picks one that meets one of those: no two
transfers share a file, no rename replaces a file, and a message leaves the part files of other transfers alone.
-/
namespace Nftp

open Lib

variable {h : Host} {s s' : State} {n : Packet} {msg : Bytes} {r : Ret} {c : Nctx}

/-- No two transfers in progress share a path. -/
def PathsApart (s : State) : Prop :=
  ∀ g g' c c', g ≠ g' → s.files g = some c → s.files g' = some c' → Apart c.wfname c'.wfname

/-- No two transfers in progress share a file. -/
def NoSharedFile (s : State) : Prop :=
  ∀ g g' c c', g ≠ g' → s.files g = some c → s.files g' = some c' → FilesApart s c.wfname c'.wfname

def NamesPlain (s : State) : Prop := ∀ g c, s.files g = some c → PlainName c.wfname

/-- Transfers with plain names share no file exactly when they share no path. -/
theorem noSharedFile_iff (hp : NamesPlain s) : NoSharedFile s ↔ PathsApart s := by
  constructor
  · intro hno g g' c c' hne hg hg'
    exact (hno g g' c c' hne hg hg').apart
  · intro hap g g' c c' hne hg hg'
    exact (hap g g' c c' hne hg hg').filesApart (hp g c hg) (hp g' c' hg') s

/-- Moreover the final path of each is free, or it has no part file to rename. -/
structure NamesOk (s : State) : Prop where
  apart : PathsApart s
  free : ∀ g c, s.files g = some c → s.fs.disk (s.final c.wfname) = none ∨ s.fs.disk (s.part c.wfname) = none

/-- A HELLO that gets as far as storing a context picked a name apart from those of the other transfers. -/
def PicksApart (h : Host) (s : State) (n : Packet) : Prop :=
  h.write ≠ .noOpen → s.files n.fileid = none → ∀ w, pickName s n.name = .ok (some w) →
    ∀ g c, g ≠ nftpHash n.name → s.files g = some c → Apart w c.wfname

/-! ## HELLO -/

/-- **A HELLO keeps the paths of the transfers disjoint exactly when it picks a name apart.** -/
theorem handleHello_apart (hi : Inv s) (hd : PathsApart s) (hr : handleHello h s n = .ok r) :
    PathsApart r.st ↔ PicksApart h s n := by
  rcases handleHello_cases hi.reg hr with ⟨h0, rfl⟩ | ⟨h0, a, s₁, w, path, -, hb, hpick, -, hcase⟩
  · refine ⟨fun _ _ h0' => ?_, fun _ => hd⟩
    rw [h0'] at h0
    cases h0
  have hfiles : s₁.files = s.files := (congrArg State.files hb.eq).trans rfl
  rcases hcase with ⟨hw, rfl⟩ | ⟨hw, rv, rmsg, rlen, -, rfl⟩
  · refine ⟨fun _ hw' => absurd hw hw', fun _ => ?_⟩
    show PathsApart s₁
    intro g g' c c' hne hg hg'
    exact hd g g' c c' hne (by rw [← hfiles]; exact hg) (by rw [← hfiles]; exact hg')
  · have hself : Function.update s.files (nftpHash n.name) (some (helloCtx n a w)) (nftpHash n.name) =
        some (helloCtx n a w) := Function.update_self ..
    have hother : ∀ {g d}, g ≠ nftpHash n.name →
        (Function.update s.files (nftpHash n.name) (some (helloCtx n a w)) g = some d ↔ s.files g = some d) :=
      fun hg => by rw [Function.update_of_ne hg]
    constructor
    · intro hdis _ _ w' hpick' g d hg hgd
      rw [hpick] at hpick'
      cases hpick'
      exact hdis _ g _ d (Ne.symm hg) hself ((hother hg).2 hgd)
    · intro hpa g g' d d' hne hg hg'
      have hpa' := hpa hw h0 w hpick
      by_cases hgk : g = nftpHash n.name
      · subst hgk
        replace hg := hself.symm.trans hg
        cases hg
        exact hpa' g' d' (Ne.symm hne) ((hother (Ne.symm hne)).1 hg')
      · by_cases hgk' : g' = nftpHash n.name
        · subst hgk'
          replace hg' := hself.symm.trans hg'
          cases hg'
          exact (hpa' g d hgk ((hother hgk).1 hg)).symm
        · exact hd g g' d d' hne ((hother hgk).1 hg) ((hother hgk').1 hg')

theorem handleHello_names (hi : Inv s) (hn : NamesOk s) (hpa : PicksApart h s n) (hr : handleHello h s n = .ok r) :
    NamesOk r.st := by
  refine ⟨(handleHello_apart hi hn.apart hr).2 hpa, ?_⟩
  rcases handleHello_cases hi.reg hr with ⟨h0, rfl⟩ | ⟨h0, a, s₁, w, path, -, hb, hpick, hpath, hcase⟩
  · exact hn.free
  have hrec : s₁.recvdir = s.recvdir := (congrArg State.recvdir hb.eq).trans rfl
  obtain ⟨rfl, -⟩ := partPath_eq_ok hpath
  rcases hcase with ⟨-, rfl⟩ | ⟨hw, rv, rmsg, rlen, -, rfl⟩
  · intro g d hg
    show s₁.fs.disk (s₁.final _) = none ∨ s₁.fs.disk (s₁.part _) = none
    rw [State.final, State.part, hrec, show s₁.fs = s.fs from (congrArg State.fs hb.eq).trans rfl]
    exact hn.free g d (by rw [← show s₁.files = s.files from (congrArg State.files hb.eq).trans rfl]; exact hg)
  · intro g d hg
    replace hg : Function.update s.files (nftpHash n.name) (some (helloCtx n a w)) g = some d := hg
    show (s.fs.created (s.part w)).disk (s₁.recvdir.getD [] ++ _) = none ∨
      (s.fs.created (s.part w)).disk (s₁.recvdir.getD [] ++ _) = none
    rw [hrec]
    by_cases hgk : g = nftpHash n.name
    · subst hgk
      rw [Function.update_self] at hg
      cases hg
      exact .inl ((created_ne s.fs (part_ne_final s w).symm).trans (pickName_ok hpick).2)
    · rw [Function.update_of_ne hgk] at hg
      obtain ⟨h1, -, h3, -⟩ := (hpa hw h0 w hpick g d hgk hg).paths s
      rcases hn.free g d hg with h' | h'
      · exact .inl ((created_ne s.fs h3).trans h')
      · exact .inr ((created_ne s.fs h1).trans h')

theorem handleHello_fs (hi : Inv s) (hr : handleHello h s n = .ok r) :
    (((s.files n.fileid).isSome ∨ h.write = .noOpen) ∧ r.st.fs = s.fs) ∨
    (h.write ≠ .noOpen ∧ s.files n.fileid = none ∧
      ∃ w, pickName s n.name = .ok (some w) ∧ r.st.fs = s.fs.created (s.part w)) := by
  rcases handleHello_cases hi.reg hr with ⟨h0, rfl⟩ | ⟨h0, a, s₁, w, path, -, hb, hpick, hpath, ⟨hw, rfl⟩ | ⟨hw, _, _, _, -, rfl⟩⟩
  · exact .inl ⟨.inl h0, rfl⟩
  · exact .inl ⟨.inr hw, (congrArg State.fs hb.eq).trans rfl⟩
  · obtain ⟨rfl, -⟩ := partPath_eq_ok hpath
    exact .inr ⟨hw, h0, w, hpick, rfl⟩

/-! ## FILE and END -/

/-- A block keeps the names as they are: the context it is for, if it stays, keeps its own. -/
theorem handleFile_apart (hi : Inv s) (hd : PathsApart s) {b : Bytes} (hb : n.content = some b) (hl : b.length = n.ctlen)
    (hr : handleFile h s n = .ok r) : PathsApart r.st := by
  have hold : ∀ g c', r.st.files g = some c' → ∃ c, s.files g = some c ∧ c.wfname = c'.wfname :=
    fun g c' hg => handleFile_wfname hi hb hl hr hg
  intro g g' c c' hne hg hg'
  obtain ⟨d, hd1, hd2⟩ := hold g c hg
  obtain ⟨d', hd1', hd2'⟩ := hold g' c' hg'
  rw [← hd2, ← hd2']
  exact hd g g' d d' hne hd1 hd1'

/-- The paths of the other transfers are as they were. -/
theorem handleFile_other (hi : Inv s) (hn : NamesOk s) {b : Bytes} (hb : n.content = some b) (hl : b.length = n.ctlen)
    (hr : handleFile h s n = .ok r) {g : UInt32} (hg : g ≠ n.fileid) (hc : r.st.files g = some c) :
    r.st.fs.disk (r.st.final c.wfname) = none ∨ r.st.fs.disk (r.st.part c.wfname) = none := by
  have heff := handleFile_effect hi hb hl hr
  rw [heff.files g hg] at hc
  have hpaths : ∀ d, s.files n.fileid = some d → Apart d.wfname c.wfname := fun d hd =>
    hn.apart _ _ d c (Ne.symm hg) hd hc
  have hfinal : r.st.fs.disk (s.final c.wfname) = s.fs.disk (s.final c.wfname) := by
    refine heff.disk _ ?_
    rintro w ⟨d, hd, rfl⟩
    obtain ⟨-, -, h3, h4⟩ := (hpaths d hd).paths s
    exact ⟨h3, h4⟩
  have hpart : r.st.fs.disk (s.part c.wfname) = s.fs.disk (s.part c.wfname) := by
    refine heff.disk _ ?_
    rintro w ⟨d, hd, rfl⟩
    obtain ⟨h1, h2, -, -⟩ := (hpaths d hd).paths s
    exact ⟨h1, h2⟩
  rw [final_congr heff.recvdir, part_congr heff.recvdir, hfinal, hpart]
  exact hn.free g c hc

/-- A part file that only grows leaves the final path as it was. -/
theorem AppendedTo.free {fs' : Fs} (happ : AppendedTo (s.part c.wfname) s.fs fs')
    (hfree : s.fs.disk (s.final c.wfname) = none ∨ s.fs.disk (s.part c.wfname) = none) :
    fs'.disk (s.final c.wfname) = none ∨ fs'.disk (s.part c.wfname) = none := by
  rcases hfree with h' | h'
  · exact .inl ((happ.frame _ (part_ne_final s _).symm).trans h')
  · right
    have hsome := happ.isSome
    rw [h', Option.isSome_none] at hsome
    exact Option.isSome_eq_false_iff.1 hsome |> Option.isNone_iff_eq_none.1

theorem handleFile_names (hi : Inv s) (hn : NamesOk s) {b : Bytes} (hb : n.content = some b) (hl : b.length = n.ctlen)
    (hr : handleFile h s n = .ok r) : NamesOk r.st ∧ ∀ q, Published s r q → s.fs.disk q = none := by
  have heff := handleFile_effect hi hb hl hr
  have hap := handleFile_apart hi hn.apart hb hl hr
  cases hc : s.files n.fileid with
  | none =>
    have hst : r.st = s := by
      rcases handleFile_cases hr with ⟨-, rfl⟩ | ⟨c, _, _, _, _, hc', -⟩
      · rfl
      · rw [hc] at hc'; cases hc'
    exact ⟨by rw [hst]; exact hn, fun q ⟨src, hm⟩ => by rw [hst, List.drop_length] at hm; cases hm⟩
  | some c =>
    obtain ⟨c', fs', hsame, happ, hcase⟩ := handleFile_outcome hi hb hl hc hr
    obtain ⟨m, hops⟩ := happ.ops
    -- it is enough to look at the transfer itself
    have hown : (r.st.fs.disk (s.final c.wfname) = none ∨ r.st.fs.disk (s.part c.wfname) = none) → NamesOk r.st := by
      refine fun hfree => ⟨hap, fun g d hg => ?_⟩
      by_cases hgk : g = n.fileid
      · subst hgk
        obtain ⟨d', hd', hw⟩ := handleFile_wfname hi hb hl hr hg
        rw [hc] at hd'
        cases hd'
        rw [← hw, final_congr heff.recvdir, part_congr heff.recvdir]
        exact hfree
      · exact handleFile_other hi hn hb hl hr hgk hg
    -- nothing was renamed
    have hquiet : r.st.fs = fs' → NamesOk r.st ∧ ∀ q, Published s r q → s.fs.disk q = none := by
      intro hfs
      refine ⟨hown ?_, fun q hp => absurd hp (not_published_appends (by rw [hfs]; exact hops))⟩
      rw [hfs]
      exact happ.free (hn.free _ c hc)
    rcases hcase with ⟨-, hst⟩ | ⟨-, -, -, hst⟩ | ⟨-, old, hold, -, -, hfs, -⟩
    · exact hquiet (by rw [hst])
    · exact hquiet (by rw [hst])
    · -- the final path was free, and no part file is left
      have hnone : s.fs.disk (s.final c.wfname) = none := by
        rcases hn.free _ c hc with h' | h'
        · exact h'
        · rw [hold] at h'
          cases h'
      refine ⟨hown (.inr ?_), fun q hp => ?_⟩
      · rw [hfs]
        exact renamed_src fs' (part_ne_final s _) _
      · obtain ⟨src, hm⟩ := hp
        rw [hfs, Fs.renamed, hops, List.append_assoc, List.drop_left] at hm
        rcases List.mem_append.1 hm with hm | hm
        · cases List.eq_of_mem_replicate hm
        · cases List.mem_singleton.1 hm
          exact hnone

/-! ## The other calls -/

/-- An event that leaves the directory's name and the files in it to the program. -/
def Event.Local : Event → Prop
  | .setRecvdir _ => False
  | .disk _ => False
  | _ => True

theorem step_shrinks {e : Event} (hi : Inv s) (hs : Step s e s') (he : ∀ h m, e ≠ .msg h m) (hl : e.Local) :
    s'.recvdir = s.recvdir ∧ ∀ q, s'.fs.disk q = s.fs.disk q ∨ s'.fs.disk q = none := by
  cases e with
  | msg h m => exact absurd rfl (he h m)
  | register fname cb arg =>
    obtain ⟨-, -, hs', -⟩ := step_register hi.reg hs
    exact ⟨(congrArg State.recvdir hs').trans rfl, fun q => .inl (congrFun (congrArg (·.fs.disk) hs') q)⟩
  | unregister fname =>
    obtain ⟨-, -, hs', -⟩ := step_unregister hi.reg hs
    exact ⟨(congrArg State.recvdir hs').trans rfl, fun q => .inl (congrFun (congrArg (·.fs.disk) hs') q)⟩
  | recvStop h fname =>
    obtain ⟨rv, hr⟩ := step_recvStop hs
    exact recvStop_shrinks hi hr
  | maker h fpath t key n =>
    rw [step_maker hs]
    exact ⟨rfl, fun q => .inl rfl⟩
  | setRecvdir dir => exact absurd hl id
  | setBlocksz blksz => cases hs; exact ⟨rfl, fun q => .inl rfl⟩
  | disk disk => exact absurd hl id

theorem quiet_names {e : Event} (hi : Inv s) (hn : NamesOk s) (hs : Step s e s') (he : ∀ h m, e ≠ .msg h m)
    (hl : e.Local) : NamesOk s' := by
  have hq := step_quiet hi hs he
  obtain ⟨hdir, hdisk⟩ := step_shrinks hi hs he hl
  refine ⟨fun g g' c c' hne hg hg' => hn.apart g g' c c' hne (hq.files g c hg) (hq.files g' c' hg'), fun g c hg => ?_⟩
  rw [final_congr hdir, part_congr hdir]
  rcases hn.free g c (hq.files g c hg) with h' | h'
  · left
    rcases hdisk (s.final c.wfname) with hd | hd
    · rw [hd, h']
    · exact hd
  · right
    rcases hdisk (s.part c.wfname) with hd | hd
    · rw [hd, h']
    · exact hd

/-! ## Runs -/

def Event.PicksApart (s : State) : Event → Prop
  | .msg h m => ∀ n, parse m = .ok (.ok, n) → MsgType.ofCode n.type = some .hello → Nftp.PicksApart h s n
  | _ => True

/-- The name a HELLO gives is plain. -/
def Event.Plain : Event → Prop
  | .msg _ m => ∀ n, parse m = .ok (.ok, n) → MsgType.ofCode n.type = some .hello → PlainName n.name
  | _ => True

/-- What a message does to the files of the others: it renames nothing onto a file, and leaves their part files alone. -/
structure Harmless (s : State) (msg : Bytes) (r : Ret) : Prop where
  rename : ∀ q, Published s r q → s.fs.disk q = none
  part : ∀ n key g c, parse msg = .ok (.ok, n) → n.key = some key → g ≠ key → s.files g = some c →
    r.st.fs.disk (s.part c.wfname) = s.fs.disk (s.part c.wfname)

theorem harmless_refl {msg : Bytes} (hst : r.st = s) : Harmless s msg r where
  rename q hp := by
    obtain ⟨src, hm⟩ := hp
    rw [hst, List.drop_length] at hm
    cases hm
  part _ _ _ _ _ _ _ _ := by rw [hst]

theorem handleHello_harmless (hi : Inv s) (hpa : PicksApart h s n) (hp : parse msg = .ok (.ok, n))
    (ht : MsgType.ofCode n.type = some .hello) (hr : handleHello h s n = .ok r) : Harmless s msg r := by
  rcases handleHello_fs hi hr with ⟨-, hfs⟩ | ⟨hw, h0, w, hpick, hfs⟩
  · refine ⟨fun q ⟨src, hm⟩ => ?_, fun _ _ _ _ _ _ _ _ => by rw [hfs]⟩
    rw [hfs, List.drop_length] at hm
    cases hm
  · refine ⟨fun q ⟨src, hm⟩ => ?_, fun n' key g c hp' hkey hg hc => ?_⟩
    · rw [hfs, Fs.created, List.drop_left] at hm
      cases List.mem_singleton.1 hm
    · rw [hp] at hp'
      cases hp'
      rw [key_hello ht] at hkey
      cases hkey
      rw [hfs]
      exact created_ne s.fs ((hpa hw h0 w hpick g c hg hc).paths s).1

/-- **A message to transfers with disjoint paths** keeps them disjoint exactly when it picks a name apart, and then it is
harmless. -/
theorem receive_names (hi : Inv s) (hn : NamesOk s) (hr : receive h s msg = .ok r) :
    (PathsApart r.st ↔ (Event.msg h msg).PicksApart s) ∧
    ((Event.msg h msg).PicksApart s → NamesOk r.st ∧ Harmless s msg r) := by
  rcases receive_kinds hr with ⟨hst, hno⟩ | ⟨n, hp, ht, hr⟩ | ⟨n, b, hp, hblock, hb, hl, hr⟩
  · have hpick : (Event.msg h msg).PicksApart s := fun n hp ht => absurd ht (hno n hp).1
    exact ⟨⟨fun _ => hpick, fun _ => by rw [hst]; exact hn.apart⟩, fun _ => ⟨by rw [hst]; exact hn, harmless_refl hst⟩⟩
  · have hone : (Event.msg h msg).PicksApart s ↔ (MsgType.ofCode n.type = some .hello → PicksApart h s n) :=
      parse_forall hp
    rw [hone, handleHello_apart hi hn.apart hr]
    refine ⟨⟨fun hpa _ => hpa, fun hpa => hpa ht⟩, fun hpa => ?_⟩
    exact ⟨handleHello_names hi hn (hpa ht) hr, handleHello_harmless hi (hpa ht) hp ht hr⟩
  · obtain ⟨hn', hren⟩ := handleFile_names hi hn hb hl hr
    have hpick : (Event.msg h msg).PicksApart s := (parse_forall hp).2 fun ht => absurd ht hblock.not_hello
    refine ⟨⟨fun _ => hpick, fun _ => hn'.apart⟩, fun _ => ⟨hn', hren, fun n' key g c hp' hkey hg hc => ?_⟩⟩
    rw [hp] at hp'
    cases hp'
    rw [hblock.key_eq] at hkey
    cases hkey
    refine (handleFile_effect hi hb hl hr).disk _ ?_
    rintro w ⟨d, hd, rfl⟩
    obtain ⟨h1, h2, -, -⟩ := (hn.apart _ _ d c (Ne.symm hg) hd hc).paths s
    exact ⟨h1, h2⟩

theorem step_names {e : Event} (hi : Inv s) (hn : NamesOk s) (hs : Step s e s') (hl : e.Local) (hpa : e.PicksApart s) :
    NamesOk s' := by
  rcases step_cases hi hs with ⟨h, m, r, rfl, hr, rfl⟩ | ⟨he, -⟩
  · exact ((receive_names hi hn hr).2 hpa).1
  · exact quiet_names hi hn hs he hl

/-- The name of a HELLO is picked among plain ones, so the names of the transfers stay plain. -/
theorem receive_plain (hi : Inv s) (hpl : NamesPlain s) (hm : (Event.msg h msg).Plain) (hr : receive h s msg = .ok r) :
    NamesPlain r.st := by
  rcases receive_kinds hr with ⟨hst, -⟩ | ⟨n, hp, ht, hr⟩ | ⟨n, b, -, -, hb, hl, hr⟩
  · rw [hst]
    exact hpl
  · rcases handleHello_cases hi.reg hr with ⟨-, rfl⟩ | ⟨-, a, s₁, w, path, -, hbind, hpick, -, hcase⟩
    · exact hpl
    have hfiles : s₁.files = s.files := (congrArg State.files hbind.eq).trans rfl
    rcases hcase with ⟨-, rfl⟩ | ⟨-, rv, rmsg, rlen, -, rfl⟩
    · intro g c hg
      exact hpl g c (by rw [← hfiles]; exact hg)
    · intro g c hg
      replace hg : Function.update s.files (nftpHash n.name) (some (helloCtx n a w)) g = some c := hg
      by_cases hgk : g = nftpHash n.name
      · subst hgk
        rw [Function.update_self] at hg
        cases hg
        have hname := hm n hp ht
        rcases (pickName_ok hpick).1 with hw | ⟨j, -, hj, hw⟩
        · exact hw ▸ hname
        · exact hw ▸ hname.numbered hj
      · rw [Function.update_of_ne hgk] at hg
        exact hpl g c hg
  · intro g c hg
    obtain ⟨d, hd, hw⟩ := handleFile_wfname hi hb hl hr hg
    exact hw ▸ hpl g d hd

theorem step_plain {e : Event} (hi : Inv s) (hpl : NamesPlain s) (hs : Step s e s') (he : e.Plain) : NamesPlain s' := by
  rcases step_cases hi hs with ⟨h, m, r, rfl, hr, rfl⟩ | ⟨hq, -⟩
  · exact receive_plain hi hpl he hr
  · exact fun g c hg => hpl g c ((step_quiet hi hs hq).files g c hg)

/-- **In a run whose HELLOs give plain names and pick names apart**, no two transfers share a file; the next message of a
plain name keeps it so exactly when it picks a name apart too, and then it replaces no file and leaves the part files of
the other transfers alone. -/
theorem run_apart {s₀ : State} {es : List Event} (hb : Booted s₀)
    (hrun : Run (fun s e s' => Step s e s' ∧ e.Local ∧ e.Plain ∧ e.PicksApart s) s₀ es s) :
    NoSharedFile s ∧ ∀ h msg r, (Event.msg h msg).Plain → receive h s msg = .ok r →
      (NoSharedFile r.st ↔ (Event.msg h msg).PicksApart s) ∧ ((Event.msg h msg).PicksApart s → Harmless s msg r) := by
  have hno : ∀ {g c}, s₀.files g ≠ some c := fun {g c} hg => by
    rw [booted_files hb] at hg
    cases hg
  obtain ⟨hi, hn, hpl⟩ : Inv s ∧ NamesOk s ∧ NamesPlain s := by
    refine Run.invariant (I := fun s => Inv s ∧ NamesOk s ∧ NamesPlain s) (fun s e s' hinv he => ?_) hrun
      ⟨booted_inv hb, ⟨fun _ _ _ _ _ hg => absurd hg hno, fun _ _ hg => absurd hg hno⟩, fun _ _ hg => absurd hg hno⟩
    obtain ⟨hi, hn, hpl⟩ := hinv
    obtain ⟨hs, hl, hplain, hpa⟩ := he
    exact ⟨step_inv hi hs, step_names hi hn hs hl hpa, step_plain hi hpl hs hplain⟩
  refine ⟨(noSharedFile_iff hpl).2 hn.apart, fun h msg r hm hr => ?_⟩
  obtain ⟨hiff, himp⟩ := receive_names hi hn hr
  exact ⟨(noSharedFile_iff (receive_plain hi hpl hm hr)).trans hiff, fun hpa => (himp hpa).2⟩

/-- A HELLO on an empty disk, then a block. -/
theorem run_apart_one : ∃ s₀ s r, Booted s₀ ∧ Step s₀ (.msg .good (helloBytes 0 2 [0x66] 0)) s ∧
    receive .good s (fileBytes [0x66] 0 [1]) = .ok r ∧ NoSharedFile s ∧
    (NoSharedFile r.st ↔ (Event.msg .good (fileBytes [0x66] 0 [1])).PicksApart s) := by
  obtain ⟨s₀, s, hb, hrun, r, hr, -⟩ := trace_run none 1 .empty [.msg .good (helloBytes 0 2 [0x66] 0)]
    (fun s => ∃ r, receive .good s (fileBytes [0x66] 0 [1]) = .ok r ∧ r.rv = .ok) (by decide +kernel)
  have hs := run_single_iff.1 hrun
  have hpa : (Event.msg .good (helloBytes 0 2 [0x66] 0)).PicksApart s₀ := by
    intro n _ _ _ _ w _ g c _ hc
    rw [booted_files hb] at hc
    cases hc
  obtain ⟨n, hp, -, hname, -, -⟩ := @parse_helloBytes 0 2 [0x66] 0 (by decide) (by decide)
  have hplain : (Event.msg .good (helloBytes 0 2 [0x66] 0)).Plain := (parse_forall hp).2 fun _ => by
    rw [hname]
    decide
  obtain ⟨n', hp', ht', -⟩ := @parse_fileBytes [0x66] 0 [1] (by decide)
  have hplain' : (Event.msg .good (fileBytes [0x66] 0 [1])).Plain := (parse_forall hp').2 fun ht => by
    rw [ht'] at ht
    cases ht
  obtain ⟨hap, hnext⟩ := run_apart hb (Run.single ⟨hs, trivial, hplain, hpa⟩)
  exact ⟨s₀, s, r, hb, hs, hr, hap, (hnext _ _ r hplain' hr).1⟩

/-- With a file `x` in the directory, the HELLOs of `x` and of `x_01` both pick `x_01`. -/
theorem numbered_clash : ∃ s₀ s c c', Booted s₀ ∧
    Run Step s₀ [.msg .good (helloBytes 0 1 [0x78] 0), .msg .good (helloBytes 0 1 (numbered [0x78] 1) 0)] s ∧
    nftpHash [0x78] ≠ nftpHash (numbered [0x78] 1) ∧
    s.files (nftpHash [0x78]) = some c ∧ s.files (nftpHash (numbered [0x78] 1)) = some c' ∧
    c.wfname = c'.wfname ∧ s.part c.wfname = s.part c'.wfname := by
  obtain ⟨s₀, s, hb, hrun, hne, c, hc, c', hc', hw⟩ := trace_run none 1
    { disk := fun q => if q = [0x78] then some [9] else none, ops := [] }
    [.msg .good (helloBytes 0 1 [0x78] 0), .msg .good (helloBytes 0 1 (numbered [0x78] 1) 0)]
    (fun s => nftpHash [0x78] ≠ nftpHash (numbered [0x78] 1) ∧ ∃ c, s.files (nftpHash [0x78]) = some c ∧
      ∃ c', s.files (nftpHash (numbered [0x78] 1)) = some c' ∧ c.wfname = c'.wfname) (by decide +kernel)
  exact ⟨s₀, s, c, c', hb, hrun, hne, hc, hc', hw, by rw [hw]⟩

end Nftp
