import Nftp.Ending
/-!
# Admission — which HELLOs are refused

A HELLO is refused with `NFTP_ERR_HT` by two checks: the one for a transfer in progress, which looks at file id 0, and
the insertion under the hash of the name, reached once the part file is there.  `refusal` says when the two together
refuse exactly the HELLOs of the files being received.
-/
namespace Nftp

open Lib

variable {h : Host} {s : State} {n : Packet} {msg f : Bytes} {r : Ret}

/-- The two checks see what is being received under the name: file id 0 hides no free name, and a taken one finds room to
be saved under, so that the insertion is reached. -/
def KeySeen (s : State) (f : Bytes) : Prop :=
  ((s.files 0).isSome → (s.files (nftpHash f)).isSome) ∧
    (¬ (s.files 0).isSome → (s.files (nftpHash f)).isSome → HasRoom s.recvdir s.Free f)

instance (s : State) (f : Bytes) : Decidable (KeySeen s f) := inferInstanceAs (Decidable ((_ → _) ∧ (_ → _ → _)))

/-- **When a HELLO is refused as in progress**, the part file being created: file id 0 is being received; or the key is
taken, and a name is found to save the file under. -/
theorem handleHello_busy (hreg : RegOk s) (hw : h.write ≠ .noOpen) :
    (∃ r, handleHello h s n = .ok r ∧ r.rv = .ht) ↔
      (s.files n.fileid).isSome ∨ (s.files (nftpHash n.name)).isSome ∧ HasRoom s.recvdir s.Free n.name := by
  rw [← pickName_iff]
  constructor
  · rintro ⟨r, hr, hrv⟩
    rcases handleHello_cases hreg hr with ⟨h0, -⟩ | ⟨-, a, s₁, w, path, -, -, hpick, hpath, hcase⟩
    · exact .inl h0
    rcases hcase with ⟨hno, -⟩ | ⟨-, rv, rmsg, rlen, ⟨hsome, -⟩ | ⟨-, rfl, -⟩, rfl⟩
    · exact absurd hno hw
    · exact .inr ⟨hsome, w, hpick, (partPath_eq_ok hpath).2⟩
    · cases hrv
  · intro hbusy
    by_cases h0 : (s.files n.fileid).isSome
    · refine ⟨⟨.ht, none, 0, s⟩, ?_, rfl⟩
      rw [handleHello]
      exact if_pos h0
    · obtain ⟨hsome, w, hpick, hfits⟩ := hbusy.resolve_left h0
      obtain ⟨r, hr, hrv⟩ := handleHello_stores hreg (by simpa using h0) hpick hfits
      rw [if_neg hw, if_pos hsome] at hrv
      exact ⟨r, hr, hrv⟩

/-- **For every reachable state and every HELLO**: it is refused as in progress exactly when a context is stored under the
hash of its name, exactly when the two checks see that key. -/
theorem refusal (hl : Live s) (hp : parse msg = .ok (.ok, n)) (ht : MsgType.ofCode n.type = some .hello)
    (hw : h.write ≠ .noOpen) :
    ((∃ r, receive h s msg = .ok r ∧ r.rv = .ht) ↔ (s.files (nftpHash n.name)).isSome) ↔ KeySeen s n.name := by
  have hrun : receive h s msg = handleHello h s n := by rw [receive_of_parse h s hp, dispatch, ht]
  rw [hrun, handleHello_busy hl.inv.reg hw, (parse_hello hp ht).1, KeySeen]
  by_cases h0 : (s.files 0).isSome
  · refine ⟨fun hiff => ⟨fun _ => hiff.1 (.inl h0), fun hno => absurd h0 hno⟩, fun hseen => ?_⟩
    exact ⟨fun _ => hseen.1 h0, fun _ => .inl h0⟩
  · rw [or_iff_right h0]
    refine ⟨fun hiff => ⟨fun hsome => absurd hsome h0, fun _ hk => (hiff.2 hk).2⟩, fun hseen => ?_⟩
    exact ⟨And.left, fun hk => ⟨hk, hseen.2 h0 hk⟩⟩

/-- A HELLO of `f` while `f` is being received. -/
theorem refusal_again : ∃ s n, Live s ∧ parse (helloBytes 0 1 [0x66] 0) = .ok (.ok, n) ∧
    ((∃ r, receive .good s (helloBytes 0 1 [0x66] 0) = .ok r ∧ r.rv = .ht) ↔ (s.files (nftpHash [0x66])).isSome) ∧
    (s.files (nftpHash [0x66])).isSome := by
  obtain ⟨n, hp, ht, hname, -⟩ := parse_helloBytes 0 1 0 (show [0x66].length < 2 ^ 16 by decide) rfl
  obtain ⟨s, hl, hseen, hsome⟩ := trace_live none 1 .empty [.msg .good (helloBytes 0 1 [0x66] 0)]
    (fun s => KeySeen s [0x66] ∧ (s.files (nftpHash [0x66])).isSome) (by decide +kernel)
  have hiff := (refusal (h := .good) hl hp ht nofun).2 (by rw [hname]; exact hseen)
  rw [hname] at hiff
  exact ⟨s, n, hl, hp, hiff, hsome⟩

/-- While a file with the empty name is being received, whose hash is 0, the HELLO of `f` is refused. -/
theorem empty_name_blocks : ∃ s r, Live s ∧ (s.files (nftpHash [])).isSome ∧ s.files (nftpHash [0x66]) = none ∧
    receive .good s (helloBytes 0 1 [0x66] 0) = .ok r ∧ r.rv = .ht := by
  obtain ⟨s, hl, hsome, hnone, r, hr, hrv⟩ := trace_live (some [0x64, slash]) 1
    { disk := fun q => if q = [0x64, slash] then some [] else none, ops := [] } [.msg .good (helloBytes 0 1 [] 0)]
    (fun s => (s.files (nftpHash [])).isSome ∧ s.files (nftpHash [0x66]) = none ∧
      ∃ r, receive .good s (helloBytes 0 1 [0x66] 0) = .ok r ∧ r.rv = .ht) (by decide +kernel)
  exact ⟨s, r, hl, hsome, hnone, hr, hrv⟩

end Nftp
