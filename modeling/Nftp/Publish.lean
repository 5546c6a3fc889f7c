import Nftp.Table
/-!
# Publish — what appears under a final name

The handler renames the part file first and reads the hash of the renamed file after.  A completed transfer is therefore
published whatever its contents are; `run_verified` says which completions the check would have let through.
-/
namespace Nftp

open Lib

variable {h : Host} {s s' : State} {n : Packet} {msg : Bytes} {r : Ret} {c : Nctx}

/-- The call renamed a file to the path. -/
def Published (s : State) (r : Ret) (q : Path) : Prop :=
  ∃ src, FileOp.rename src q ∈ r.st.fs.ops.drop s.fs.ops.length

def HasHash (d : Disk) (q : Path) (hashcode : UInt32) : Prop := ∃ content, d q = some content ∧ nftpHash content = hashcode

/-- What the call published under the final name of a transfer is what was announced, it published nothing if it was
refused, and it ran a callback only for what was announced. -/
structure Verified (s : State) (r : Ret) (c : Nctx) : Prop where
  published : Published s r (s.final c.wfname) → HasHash r.st.fs.disk (s.final c.wfname) c.hashcode
  refused : r.rv ≠ .ok → ¬ Published s r (s.final c.wfname)
  called : r.st.calls ≠ s.calls → HasHash r.st.fs.disk (s.final c.wfname) c.hashcode

/-- If the block completes the transfer and the rename succeeds, the hash of what was received is read and is the one
announced. -/
def Sound (h : Host) (s : State) (n : Packet) (c : Nctx) : Prop :=
  ∀ old, s.fs.disk (s.part c.wfname) = some old → Completes h s.fs.disk (s.part c.wfname) c n → h.rename = true →
    h.hash.Passes (old ++ c.stored h n) c.hashcode

instance (h : Host) (s : State) (n : Packet) (c : Nctx) : Decidable (Sound h s n c) :=
  match hd : s.fs.disk (s.part c.wfname) with
  | none => isTrue fun old ho => by rw [hd] at ho; cases ho
  | some old =>
    decidable_of_iff (Completes h s.fs.disk (s.part c.wfname) c n → h.rename = true →
        h.hash.Passes (old ++ c.stored h n) c.hashcode)
      ⟨fun h' o ho => by rw [hd] at ho; cases ho; exact h', fun h' => h' old hd⟩

theorem not_published_appends {m : Nat} {p q : Path} (hr : r.st.fs.ops = s.fs.ops ++ List.replicate m (.append p)) :
    ¬ Published s r q := by
  rintro ⟨src, hm⟩
  rw [hr, List.drop_left] at hm
  cases List.eq_of_mem_replicate hm

/-- **A block publishes only what was announced exactly when it is sound.** -/
theorem handleFile_verified (hi : Inv s) {b : Bytes} (hb : n.content = some b) (hn : b.length = n.ctlen)
    (hc : s.files n.fileid = some c) (hr : handleFile h s n = .ok r) : Verified s r c ↔ Sound h s n c := by
  obtain ⟨c', fs', -, happ, hcase⟩ := handleFile_outcome hi hb hn hc hr
  obtain ⟨m, hops⟩ := happ.ops
  -- nothing was renamed
  have hquiet : r.st = { s with files := Function.update s.files n.fileid (some c'), fs := fs' } → Verified s r c := by
    intro hst
    have hnp : ¬ Published s r (s.final c.wfname) := not_published_appends (by rw [hst]; exact hops)
    exact ⟨fun hp => absurd hp hnp, fun _ => hnp, fun hne => absurd (by rw [hst]) hne⟩
  rcases hcase with ⟨hnc, hst⟩ | ⟨hcomp, hnone, -, hst⟩ | ⟨hcomp, old, hold, hren, -, hfs, hpass⟩
  · exact ⟨fun _ _ _ h' => absurd h' hnc, fun _ => hquiet hst⟩
  · refine ⟨fun _ old hold _ hren => ?_, fun _ => hquiet hst⟩
    rcases hnone with hnone | hnone
    · rw [hold] at hnone
      cases hnone
    · rw [hren] at hnone
      cases hnone
  · have hsound : Sound h s n c ↔ h.hash.Passes (old ++ c.stored h n) c.hashcode :=
      ⟨fun hs => hs old hold hcomp hren, fun hp o ho _ _ => by rw [hold] at ho; cases ho; exact hp⟩
    have hd : r.st.fs.disk (s.final c.wfname) = some (old ++ c.stored h n) := by rw [hfs]; exact renamed_dst ..
    have hp : Published s r (s.final c.wfname) := by
      refine ⟨s.part c.wfname, ?_⟩
      rw [hfs, Fs.renamed, hops, List.append_assoc, List.drop_left]
      exact List.mem_append_right _ List.mem_cons_self
    rw [hsound]
    rcases hpass with ⟨hno, hrv, -⟩ | ⟨hyes, hrv, -⟩
    · exact ⟨fun hv => absurd hp (hv.refused hrv), fun hy => absurd hy hno⟩
    · have hh : HasHash r.st.fs.disk (s.final c.wfname) c.hashcode := ⟨_, hd, hyes.2.2⟩
      exact ⟨fun _ => hyes, fun _ => ⟨fun _ => hh, fun hne => absurd hrv hne, fun _ => hh⟩⟩

/-! ## Runs -/

/-- What a call on a FILE or END publishes is what was announced. -/
def Event.Verified (s : State) : Event → Prop
  | .msg h m => ∀ n r c, parse m = .ok (.ok, n) → n.IsBlock → s.files n.fileid = some c → receive h s m = .ok r →
      Nftp.Verified s r c
  | _ => True

def Event.Sound (s : State) : Event → Prop
  | .msg h m => ∀ n c, parse m = .ok (.ok, n) → n.IsBlock → s.files n.fileid = some c → Nftp.Sound h s n c
  | _ => True

theorem event_verified {e : Event} (hi : Inv s) (hs : Step s e s') : e.Verified s ↔ e.Sound s := by
  cases e with
  | msg h m =>
    obtain ⟨r, hr, -⟩ := bind_eq_ok.1 hs
    constructor
    · intro hv n c hp hblock hc
      obtain ⟨b, hb, hn⟩ := parse_file hp hblock
      have hr' := hr
      rw [receive_block hp hblock] at hr'
      exact (handleFile_verified hi hb hn hc hr').1 (hv n r c hp hblock hc hr)
    · intro hsound n r' c hp hblock hc hr'
      obtain ⟨b, hb, hn⟩ := parse_file hp hblock
      rw [receive_block hp hblock] at hr'
      exact (handleFile_verified hi hb hn hc hr').2 (hsound n c hp hblock hc)
  | register fname cb arg => exact Iff.rfl
  | unregister fname => exact Iff.rfl
  | recvStop h fname => exact Iff.rfl
  | maker h fpath t key n => exact Iff.rfl
  | setRecvdir dir => exact Iff.rfl
  | setBlocksz blksz => exact Iff.rfl
  | disk disk => exact Iff.rfl

/-- **In a run from `nftp_proto_init` only verified content is published, exactly when every block handled is sound.** -/
theorem run_verified {s₀ : State} {es : List Event} (hb : Booted s₀) :
    Run (fun s e s' => Step s e s' ∧ e.Verified s) s₀ es s ↔ Run (fun s e s' => Step s e s' ∧ e.Sound s) s₀ es s := by
  refine Run.congr (I := Inv) (fun s e s' hi he => step_inv hi he.1) (fun s e s' hi => ?_) (booted_inv hb)
  exact and_congr_right fun hs => event_verified hi hs

instance (s : State) (e : Event) : Decidable (e.Sound s) :=
  match e with
  | .msg h m =>
    match hp : parse m with
    | .error _ => isTrue fun n c hn => by rw [hp] at hn; cases hn
    | .ok (rv, n) =>
      if hrv : rv = .ok then
        match hc : s.files n.fileid with
        | none => isTrue fun n' c hn' _ hc' => by rw [hp] at hn'; cases hn'; rw [hc] at hc'; cases hc'
        | some c =>
          decidable_of_iff (n.IsBlock → Nftp.Sound h s n c)
            ⟨fun h' n' c' hn' hb hc' => by rw [hp] at hn'; cases hn'; rw [hc] at hc'; cases hc'; exact h' hb,
              fun h' hb => h' n c (by rw [hp, hrv]) hb hc⟩
      else isTrue fun n' c hn' => by rw [hp] at hn'; cases hn'; exact absurd rfl hrv
  | .register .. => isTrue trivial
  | .unregister _ => isTrue trivial
  | .recvStop .. => isTrue trivial
  | .maker .. => isTrue trivial
  | .setRecvdir _ => isTrue trivial
  | .setBlocksz _ => isTrue trivial
  | .disk _ => isTrue trivial

/-- A file of one block whose announced hash is right is published and verified. -/
theorem run_verified_one : ∃ s₀ s, Booted s₀ ∧ Run (fun s e s' => Step s e s' ∧ e.Verified s) s₀
      [.msg .good (helloBytes 0 1 [0x66] (nftpHash [1, 2])), .msg .good (fileBytes [0x66] 0 [1, 2])] s ∧
    s.fs.disk [0x66] = some [1, 2] := by
  obtain ⟨s₀, s, hb, hrun, hd⟩ := trace_sound (fun s e => e.Sound s) none 1 .empty
    [.msg .good (helloBytes 0 1 [0x66] (nftpHash [1, 2])), .msg .good (fileBytes [0x66] 0 [1, 2])]
    (fun s => s.fs.disk [0x66] = some [1, 2]) (by decide +kernel)
  exact ⟨s₀, s, hb, (run_verified hb).2 hrun, hd⟩

/-- A HELLO that announces hash 0, then a block whose hash is another: the call is refused and the block is published. -/
theorem unverified_published : ∃ s₀ s r c, Booted s₀ ∧ Run Step s₀ [.msg .good (helloBytes 0 1 [0x66] 0)] s ∧
    receive .good s (fileBytes [0x66] 0 [1, 2]) = .ok r ∧ s.files (nftpHash [0x66]) = some c ∧
    s.fs.disk (s.final c.wfname) = none ∧ r.rv = .proto ∧ Published s r (s.final c.wfname) ∧
    ¬ HasHash r.st.fs.disk (s.final c.wfname) c.hashcode := by
  obtain ⟨s₀, s, hb, hrun, r, hr, c, hc, hnone, hrv, hren, hd, hne⟩ :=
    trace_run none 1 .empty [.msg .good (helloBytes 0 1 [0x66] 0)]
      (fun s => ∃ r, receive .good s (fileBytes [0x66] 0 [1, 2]) = .ok r ∧ ∃ c, s.files (nftpHash [0x66]) = some c ∧
        s.fs.disk (s.final c.wfname) = none ∧ r.rv = .proto ∧
        FileOp.rename (s.part c.wfname) (s.final c.wfname) ∈ r.st.fs.ops.drop s.fs.ops.length ∧
        r.st.fs.disk (s.final c.wfname) = some [1, 2] ∧ nftpHash [1, 2] ≠ c.hashcode) (by decide +kernel)
  refine ⟨s₀, s, r, c, hb, hrun, hr, hc, hnone, hrv, ⟨_, hren⟩, ?_⟩
  rintro ⟨content, hd', hh⟩
  rw [hd] at hd'
  cases hd'
  exact hne hh

end Nftp
