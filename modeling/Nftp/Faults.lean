import Nftp.Avoid
import Nftp.Records
/-!
# Faults — no released record is touched

`Untouched x` says that `x` neither reads nor releases a record that was released before.  Most of a call has no record
to touch; the searches of the registry and the end of a transfer are safe as long as the records of live transfers are
held.
-/
namespace Nftp

open Lib

variable {α β : Type} {h : Host} {s : State} {n : Packet} {msg : Bytes}

def Untouched (x : Except Fault α) : Prop := x ≠ .error .freed

theorem protoMaker_untouched (h : Host) (s : State) (fpath : Option Bytes) (type : Option MsgType) (key n : Int) :
    Avoids .freed (protoMaker h s fpath type key n) := by
  by_cases ht : type = some .hello
  · rw [ht]
    cases fpath with
    | none => exact avoids_ok _
    | some fpath =>
      rw [protoMaker_makeHello]
      exact makeHello_avoids (e := .freed) (by decide) key fun F _ => strcpyAt_avoids (e := .freed) (by decide) fullpathSize 0 _
  · exact protoMaker_avoids (e := .freed) (by decide) (by decide) h s fpath ht key n

/-! ## Handling a message -/

theorem handleHello_untouched (hreg : RegOk s) : Avoids .freed (handleHello h s n) := by
  obtain ⟨a, s₁, hbind, -⟩ := bindFcb_bound hreg (cstr_cstr (n.fname.getD []))
  unfold handleHello
  refine avoids_ite (fun _ => avoids_ok _) fun _ => ?_
  rw [hbind, bind_ok]
  refine (pickName_avoids (e := .freed) nofun s₁ _).bind fun w _ => ?_
  cases w with
  | none => exact avoids_error (e := .freed) nofun
  | some w =>
    refine (partPath_avoids (e := .freed) nofun s₁ w).bind fun path _ => avoids_ite (fun _ => avoids_ok _) fun _ => ?_
    refine avoids_ite (fun _ => avoids_ok _) fun _ => ?_
    exact (protoMaker_untouched h _ _ _ _ _).bind fun _ _ => avoids_ok _

/-- The end of a transfer reads and releases the record the transfer is bound to. -/
theorem runCb_untouched (hreg : RegOk s) {c : Nctx} {a : Addr} (ha : c.fcb = some a) (hs : (s.heap a).isSome) :
    Avoids .freed (runCb s c) := by
  rcases runCb_spec hreg ha with ⟨hnone, -⟩ | ⟨rcd, s₁, -, hrun, -⟩
  · rw [hnone] at hs
    cases hs
  · rw [hrun]
    exact avoids_ok _

theorem finish_untouched (hreg : RegOk s) {c : Nctx} {a : Addr} (ha : c.fcb = some a) (hs : (s.heap a).isSome)
    (path : Path) : Avoids .freed (finish h s c path) := by
  refine (fileFullpath_avoids (e := .freed) nofun s.recvdir c.wfname).bind fun path2 _ => avoids_ite (fun _ => avoids_ok _) fun _ => ?_
  refine avoids_ite (fun _ => avoids_ok _) fun _ => avoids_ite (fun _ => avoids_ok _) fun _ => ?_
  refine Avoids.bind ?_ fun _ _ => avoids_ok _
  refine runCb_untouched ?_ ha hs
  exact hreg.of_eq rfl rfl rfl

theorem dropCb_untouched (hreg : RegOk s) (c : Nctx) : Avoids .freed (dropCb s c) := by
  obtain ⟨s₁, hdrop, -⟩ := dropCb_spec hreg c
  rw [hdrop]
  exact avoids_ok _

theorem handleFile_untouched (hi : Inv s) (hv : RecordsHeld s) {b : Bytes} (hb : n.content = some b) (hn : b.length = n.ctlen) :
    Avoids .freed (handleFile h s n) := by
  unfold handleFile
  cases hc : s.files n.fileid with
  | none => exact avoids_ok _
  | some c =>
    refine (partPath_avoids (e := .freed) nofun s c.wfname).bind fun path _ => ?_
    refine (storeBlock_avoids (e := .freed) nofun nofun h path c s.fs n).bind fun ⟨rv, c', fs'⟩ hstore => ?_
    refine avoids_ite (fun _ => avoids_ok _) fun _ => avoids_ite (fun _ => ?_) fun _ => avoids_ok _
    have hok := hi.ctx _ c hc
    obtain ⟨-, hsame, -⟩ := storeBlock_keeps hok.toWf hb hn hstore
    obtain ⟨a, ha, -⟩ := hok.fcb
    have hreg : RegOk { s with files := Function.update s.files n.fileid (some c'), fs := fs' } := hi.reg.of_eq rfl rfl rfl
    exact finish_untouched hreg (hsame.fcb.trans ha) (hv.record hi.reg hc ha) path

theorem handleGiveme_untouched : Avoids .freed (handleGiveme h s n) := by
  unfold handleGiveme
  cases s.senderfiles n.fileid with
  | none => exact avoids_ok _
  | some path =>
    refine (strcpyAt_avoids (e := .freed) nofun fullpathSize 0 path).bind fun _ _ => ?_
    refine (fileBlocks_avoids (e := .freed) nofun h.size s.fs.disk s.blocksz path).bind fun ⟨rv, blocks⟩ _ => ?_
    refine avoids_ite (fun _ => avoids_ok _) fun _ => ?_
    exact (protoMaker_untouched h s _ _ _ _).bind fun _ _ => avoids_ok _

theorem receive_untouched (hi : Inv s) (hv : RecordsHeld s) : Avoids .freed (receive h s msg) := by
  refine (decode_avoids (e := .freed) nofun nofun Packet.alloc msg _).bind fun ⟨rv, n⟩ hp => avoids_ite (fun _ => avoids_ok _) fun hrv => ?_
  obtain rfl : rv = .ok := not_not.1 hrv
  unfold dispatch
  cases ht : MsgType.ofCode n.type with
  | none => exact avoids_ok _
  | some t =>
    cases t with
    | hello => exact handleHello_untouched hi.reg
    | ack => exact avoids_ok _
    | file =>
      obtain ⟨b, hb, hn⟩ := parse_file hp (.inl ht)
      exact handleFile_untouched hi hv hb hn
    | fin =>
      obtain ⟨b, hb, hn⟩ := parse_file hp (.inr ht)
      exact handleFile_untouched hi hv hb hn
    | giveme => exact handleGiveme_untouched

/-- **No call touches a released record** while the records of live transfers are held. -/
theorem after_untouched (hi : Inv s) (hv : RecordsHeld s) (e : Event) : Untouched (s.after e) := by
  cases e with
  | msg h m => exact (receive_untouched hi hv).bind fun _ _ => avoids_ok _
  | register fname cb arg =>
    obtain ⟨rv, s', hr, -⟩ := protoRegister_spec hi.reg fname cb arg
    rw [State.after, hr]
    exact avoids_ok _
  | unregister fname =>
    obtain ⟨rv, s', hr, -⟩ := protoUnregister_spec hi.reg fname
    rw [State.after, hr]
    exact avoids_ok _
  | recvStop h fname =>
    refine Avoids.bind ?_ fun _ _ => avoids_ok _
    unfold protoRecvStop
    dsimp only
    cases s.files (nftpHash (fileBname fname)) with
    | none => exact avoids_ok _
    | some c =>
      refine (partPath_avoids (e := .freed) nofun s c.wfname).bind fun path _ => avoids_ite (fun _ => avoids_ok _) fun _ => ?_
      refine Avoids.bind ?_ fun _ _ => avoids_ok _
      refine dropCb_untouched ?_ c
      exact hi.reg.of_eq rfl rfl rfl
  | maker h fpath t key n => exact (protoMaker_untouched h s fpath t key n).bind fun _ _ => avoids_ok _
  | setRecvdir dir => exact avoids_ok _
  | setBlocksz blksz => exact avoids_ok _
  | disk disk => exact avoids_ok _

/-! ## Runs -/

theorem booted_held {s₀ : State} (hb : Booted s₀) : RecordsHeld s₀ := by
  intro key c hc
  rw [booted_files hb] at hc
  cases hc

/-- **Runs whose unregistrations spare the live transfers** are the runs that keep their records; and after one no call
reads or releases a released record. -/
theorem run_holds {s₀ s : State} {es : List Event} (hb : Booted s₀) :
    (Run (fun s e s' => Step s e s' ∧ RecordsHeld s') s₀ es s ↔ Run (fun s e s' => Step s e s' ∧ e.Spares s) s₀ es s) ∧
    (Run (fun s e s' => Step s e s' ∧ e.Spares s) s₀ es s → RecordsHeld s ∧ ∀ e, s.after e ≠ .error .freed) := by
  have hcongr : Run (fun s e s' => Step s e s' ∧ RecordsHeld s') s₀ es s ↔
      Run (fun s e s' => Step s e s' ∧ e.Spares s) s₀ es s := by
    refine Run.congr (I := fun s => Inv s ∧ RecordsHeld s) (fun s e s' hs he => ⟨step_inv hs.1 he.1, he.2⟩)
      (fun s e s' hs => ?_) ⟨booted_inv hb, booted_held hb⟩
    exact and_congr_right fun he => step_held hs.1 hs.2 he
  refine ⟨hcongr, fun hrun => ?_⟩
  obtain ⟨hi, hv⟩ : Inv s ∧ RecordsHeld s :=
    Run.invariant (I := fun s => Inv s ∧ RecordsHeld s) (fun s e s' hs he => ⟨step_inv hs.1 he.1, he.2⟩) (hcongr.2 hrun)
      ⟨booted_inv hb, booted_held hb⟩
  exact ⟨hv, after_untouched hi hv⟩

/-- The call unregisters no name. -/
def Event.KeepsNames : Event → Prop
  | .unregister _ => False
  | _ => True

instance : DecidablePred Event.KeepsNames
  | .msg .. => isTrue trivial
  | .register .. => isTrue trivial
  | .unregister _ => isFalse id
  | .recvStop .. => isTrue trivial
  | .maker .. => isTrue trivial
  | .setRecvdir _ => isTrue trivial
  | .setBlocksz _ => isTrue trivial
  | .disk _ => isTrue trivial

theorem Event.KeepsNames.spares {e : Event} (he : e.KeepsNames) (s : State) : e.Spares s := by
  cases e with
  | unregister fname => exact absurd he id
  | _ => exact trivial

/-- A registered file of one block, received. -/
theorem run_holds_one : ∃ s₀ s, Booted s₀ ∧ Run (fun s e s' => Step s e s' ∧ RecordsHeld s') s₀
      [.register (some [0x66]) (some 5) 6, .msg .good (helloBytes 0 1 [0x66] (nftpHash [1, 2])),
        .msg .good (fileBytes [0x66] 0 [1, 2])] s ∧
    RecordsHeld s ∧ ∀ e, s.after e ≠ .error .freed := by
  obtain ⟨s₀, s, hb, hrun, -⟩ := trace_sound (fun _ e => e.KeepsNames) none 1 .empty
    [.register (some [0x66]) (some 5) 6, .msg .good (helloBytes 0 1 [0x66] (nftpHash [1, 2])),
      .msg .good (fileBytes [0x66] 0 [1, 2])] (fun _ => True) (by decide +kernel)
  have hrun' := hrun.mono fun s e s' he => (⟨he.1, he.2.spares s⟩ : Step s e s' ∧ e.Spares s)
  exact ⟨s₀, s, hb, (run_holds hb).1.2 hrun', (run_holds hb).2 hrun'⟩

/-- A registered file that is unregistered between its HELLO and its only block: the record its transfer is bound to is
gone, and the block that completes the transfer runs into it. -/
theorem unregistered_live : ∃ s₀ s c a, Booted s₀ ∧
    Run Step s₀ [.register (some [0x66]) (some 5) 6, .msg .good (helloBytes 0 1 [0x66] (nftpHash [1, 2])),
      .unregister (some [0x66])] s ∧
    s.files (nftpHash [0x66]) = some c ∧ c.fcb = some a ∧ a ∉ s.regs ∧
    receive .good s (fileBytes [0x66] 0 [1, 2]) = .error .freed := by
  obtain ⟨s₀, s, hb, hrun, c, hc, a, ha, hreg, hf⟩ := trace_run none 1 .empty
    [.register (some [0x66]) (some 5) 6, .msg .good (helloBytes 0 1 [0x66] (nftpHash [1, 2])), .unregister (some [0x66])]
    (fun s => ∃ c, s.files (nftpHash [0x66]) = some c ∧ ∃ a, c.fcb = some a ∧ a ∉ s.regs ∧
      receive .good s (fileBytes [0x66] 0 [1, 2]) = .error .freed) (by decide +kernel)
  exact ⟨s₀, s, c, a, hb, hrun, hc, ha, hreg, hf⟩

end Nftp
