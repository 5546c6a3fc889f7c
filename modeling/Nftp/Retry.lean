import Nftp.Hello
/-!
# Retry — a stop that fails

`nftp_proto_recv_stop` takes the context out of the table, then removes the part file, then drops the record, and returns
in between when the part file cannot be removed.
-/
namespace Nftp

open Lib

variable {h : Host} {s s' : State} {fname : Bytes} {rv : Rv}

/-- There is nothing under the name's file id, or there is and its part file can be removed. -/
def Stoppable (h : Host) (s : State) (fname : Bytes) : Prop :=
  ∀ c, s.files (nftpHash (fileBname fname)) = some c → (s.fs.disk (s.part c.wfname)).isSome ∧ h.remove = true

/-- **For every reachable state, every name and whatever the removal answers**: a stop that fails changes nothing exactly
when its part file, if it has one to remove, can be removed. -/
theorem failed_stop (hl : Live s) (hr : protoRecvStop h s fname = .ok (rv, s')) :
    (rv ≠ .ok → Unchanged s s') ↔ Stoppable h s fname := by
  unfold Stoppable
  rcases recvStop_cases hl.inv.reg hr with ⟨hnone, rfl, rfl⟩ | ⟨c, hc, -, hcase⟩
  · simp [hnone, Unchanged.refl]
  · simp only [hc, Option.some.injEq, forall_eq']
    rcases hcase with ⟨hrv, hstay, rfl⟩ | ⟨rfl, hpart, hrem, -⟩
    · -- the context is gone, and nothing else
      constructor
      · intro hu
        have hfiles := congrFun (hu hrv).files (nftpHash (fileBname fname))
        rw [hc] at hfiles
        simp [htErase] at hfiles
      · rintro ⟨hpart, hrem⟩
        rcases hstay with hgone | hno
        · rw [hgone] at hpart
          cases hpart
        · rw [hrem] at hno
          cases hno
    · exact ⟨fun _ => ⟨hpart, hrem⟩, fun _ hne => absurd rfl hne⟩

/-- With a file half received, the stop of a name that is not: it is refused and changes nothing. -/
theorem failed_stop_absent : ∃ s rv s', Live s ∧ protoRecvStop .good s [0x67] = .ok (rv, s') ∧ rv = .ht ∧
    (s.files (nftpHash [0x66])).isSome ∧ ((rv ≠ .ok → Unchanged s s') ↔ Stoppable .good s [0x67]) := by
  obtain ⟨s, hl, hsome, s', hr, -⟩ := trace_live none 1 .empty
    [.msg .good (helloBytes 0 2 [0x66] 0), .msg .good (fileBytes [0x66] 0 [1])]
    (fun s => (s.files (nftpHash [0x66])).isSome ∧ ∃ s', protoRecvStop .good s [0x67] = .ok (.ht, s') ∧ True)
    (by decide +kernel)
  exact ⟨s, .ht, s', hl, hr, rfl, hsome, failed_stop hl hr⟩

/-- A transfer that completed and failed its hash check has a context and no part file: stopping it returns
`NFTP_ERR_FILEPATH` and has erased the context, and stopping it again finds no transfer. -/
theorem stop_half_done : ∃ s s', Live s ∧ protoRecvStop .good s [0x66] = .ok (.filepath, s') ∧
    (s.files (nftpHash [0x66])).isSome ∧ s'.files (nftpHash [0x66]) = none ∧ ¬ Unchanged s s' := by
  obtain ⟨s, hl, hsome, s', hr, hnone⟩ := trace_live none 1 .empty
    [.msg .good (helloBytes 0 1 [0x66] 0), .msg .good (fileBytes [0x66] 0 [1])]
    (fun s => (s.files (nftpHash [0x66])).isSome ∧ ∃ s', protoRecvStop .good s [0x66] = .ok (.filepath, s') ∧
      s'.files (nftpHash [0x66]) = none) (by decide +kernel)
  refine ⟨s, s', hl, hr, hsome, hnone, fun hu => ?_⟩
  rw [← hu.files, hnone] at hsome
  cases hsome

end Nftp
