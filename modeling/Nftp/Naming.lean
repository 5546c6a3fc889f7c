import Nftp.Ending
/-!
# Naming — the name a HELLO's file is saved under

The search of `nftp_file_newname` may find none of its 99 names free; the HELLO case does not look at what it returns.
-/
namespace Nftp

open Lib

variable {h : Host} {s : State} {n : Packet} {msg : Bytes} {r : Ret}

/-- A context is stored under the file's id, saved under a name no file has: the file's own when that is free, else one
with a number. -/
def NamedFresh (s : State) (n : Packet) (r : Ret) : Prop :=
  r.rv = .ok ∧ (∀ g, g ≠ nftpHash n.name → r.st.files g = s.files g) ∧ ∃ c, r.st.files (nftpHash n.name) = some c ∧
    (c.wfname = n.name ∨ ∃ j, 1 ≤ j ∧ j < 100 ∧ c.wfname = numbered n.name j) ∧ (c.wfname = n.name ↔ s.Free n.name) ∧
    s.Free c.wfname

/-- An error, and no context stored. -/
def RefusedClean (s : State) (r : Ret) : Prop := r.rv ≠ .ok ∧ r.st.files = s.files

/-- The name picked is the file's own exactly when that is free. -/
theorem pickName_own {f w : Bytes} (hpick : pickName s f = .ok (some w)) : w = f ↔ s.Free f := by
  obtain ⟨-, hfree⟩ := pickName_ok hpick
  constructor
  · rintro rfl
    exact hfree
  · intro hf
    obtain ⟨q, hq, hpick⟩ := bind_eq_ok.1 hpick
    obtain rfl := fullpath_eq_ok hq
    have hno : ¬ fileExist s.fs.disk (s.final f) = true := by
      rw [fileExist, show s.fs.disk (s.final f) = none from hf]
      exact Bool.false_ne_true
    rw [if_neg hno] at hpick
    cases hpick
    rfl

/-- **A HELLO of a file not being received, when its file is saved under a name**: it is refused, or a context is stored
under a fresh one. -/
theorem handleHello_fresh (hreg : RegOk s) (hnew : s.files (nftpHash n.name) = none) (hr : handleHello h s n = .ok r) :
    RefusedClean s r ∨ NamedFresh s n r := by
  rcases handleHello_cases hreg hr with ⟨-, rfl⟩ | ⟨-, a, s₁, w, path, -, hb, hpick, -, hcase⟩
  · exact .inl ⟨nofun, rfl⟩
  rcases hcase with ⟨-, rfl⟩ | ⟨-, rv, rmsg, rlen, ⟨hsome, -⟩ | ⟨-, rfl, -, -⟩, rfl⟩
  · exact .inl ⟨nofun, (congrArg State.files hb.eq).trans rfl⟩
  · rw [hnew] at hsome
    cases hsome
  · obtain ⟨hform, hfree⟩ := pickName_ok hpick
    refine .inr ⟨rfl, fun g hg => ?_, helloCtx n a w, ?_, hform, pickName_own hpick, hfree⟩
    · exact Function.update_of_ne hg _ _
    · exact Function.update_self ..

/-- **For every reachable state and every HELLO of a file not being received**: it is refused and no context stored, or
one is stored under a fresh name, exactly when file id 0 is being received or there is a name to save it under whose
paths fit. -/
theorem hello_named (hl : Live s) (hp : parse msg = .ok (.ok, n)) (ht : MsgType.ofCode n.type = some .hello)
    (hnew : s.files (nftpHash n.name) = none) :
    (∃ r, receive h s msg = .ok r ∧ (RefusedClean s r ∨ NamedFresh s n r)) ↔
      (s.files 0).isSome ∨ HasRoom s.recvdir s.Free n.name := by
  have hrun : receive h s msg = handleHello h s n := by rw [receive_of_parse h s hp, dispatch, ht]
  have hid := (parse_hello hp ht).1
  rw [hrun]
  constructor
  · rintro ⟨r, hr, -⟩
    rcases handleHello_cases hl.inv.reg hr with ⟨h0, -⟩ | ⟨-, a, s₁, w, path, -, -, hpick, hpath, -⟩
    · exact .inl (hid ▸ h0)
    · exact .inr (pickName_iff.1 ⟨w, hpick, (partPath_eq_ok hpath).2⟩)
  · intro hroom
    by_cases h0 : (s.files 0).isSome
    · refine ⟨⟨.ht, none, 0, s⟩, ?_, .inl ⟨(by decide : Rv.ht ≠ .ok), rfl⟩⟩
      rw [handleHello]
      exact if_pos (by rw [hid]; exact h0)
    · obtain ⟨w, hpick, hfits⟩ := pickName_iff.2 (hroom.resolve_left h0)
      obtain ⟨r, hr, -⟩ := handleHello_stores (h := h) hl.inv.reg (by rw [hid]; simpa using h0) hpick hfits
      exact ⟨r, hr, handleHello_fresh hl.inv.reg hnew hr⟩

/-- A file of the name is there, and one with the number 01: the HELLO's file is saved under another name. -/
theorem hello_named_second : ∃ s r n, Live s ∧ ¬ s.Free [0x66] ∧ ¬ s.Free (numbered [0x66] 1) ∧
    parse (helloBytes 0 1 [0x66] 0) = .ok (.ok, n) ∧ receive .good s (helloBytes 0 1 [0x66] 0) = .ok r ∧
    (RefusedClean s r ∨ NamedFresh s n r) := by
  obtain ⟨n, hp, ht, hname, -⟩ := parse_helloBytes 0 1 0 (show [0x66].length < 2 ^ 16 by decide) rfl
  obtain ⟨s, hl, hnew, hf, hf1, hfits, hf2⟩ := trace_live none 1
    { disk := fun q => if q = [0x66] ∨ q = numbered [0x66] 1 then some [] else none, ops := [] } []
    (fun s => s.files (nftpHash [0x66]) = none ∧ s.fs.disk (s.final [0x66]) ≠ none ∧
      s.fs.disk (s.final (numbered [0x66] 1)) ≠ none ∧ NameFits s.recvdir (numbered [0x66] 1) ∧
      s.fs.disk (s.final (numbered [0x66] 2)) = none) (by decide +kernel)
  have hroom : HasRoom s.recvdir s.Free n.name := by
    rw [hname]
    exact .inr ⟨hf, hfits, 2, by decide, by decide, hf2⟩
  obtain ⟨r, hr, hclean⟩ := (hello_named (h := .good) hl hp ht (by rw [hname]; exact hnew)).2 (.inr hroom)
  exact ⟨s, r, n, hl, hf, hf1, hp, hr, hclean⟩

/-- With the file's own name and its 99 numbered ones taken, the name is NULL, and is read. -/
theorem hello_nameless : ∃ s n, Live s ∧ s.files (nftpHash [0x66]) = none ∧ parse (helloBytes 0 1 [0x66] 0) = .ok (.ok, n) ∧
    n.name = [0x66] ∧ receive .good s (helloBytes 0 1 [0x66] 0) = .error .null ∧
    ¬ ∃ r, receive .good s (helloBytes 0 1 [0x66] 0) = .ok r ∧ (RefusedClean s r ∨ NamedFresh s n r) := by
  obtain ⟨n, hp, -, hname, -⟩ := parse_helloBytes 0 1 0 (show [0x66].length < 2 ^ 16 by decide) rfl
  obtain ⟨s, hl, hnew, hnull⟩ := trace_live none 1 { disk := fun _ => some [], ops := [] } []
    (fun s => s.files (nftpHash [0x66]) = none ∧ receive .good s (helloBytes 0 1 [0x66] 0) = .error .null) (by decide +kernel)
  refine ⟨s, n, hl, hnew, hp, hname, hnull, ?_⟩
  rintro ⟨r, hr, -⟩
  rw [hnull] at hr
  cases hr

end Nftp
