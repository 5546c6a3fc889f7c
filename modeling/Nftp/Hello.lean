import Nftp.Trace
/-!
# Hello — a refused HELLO

A HELLO binds a record, creates the part file and stores its context before it knows whether it is refused: the check
for a transfer in progress looks at file id 0, which no HELLO sets, and the table is keyed by the hash of the name.
-/
namespace Nftp

open Lib

variable {h : Host} {s s' : State} {n : Packet} {msg : Bytes} {r : Ret}

/-- The files table, the callback registry and the contents of every file are the same. -/
structure Unchanged (s s' : State) : Prop where
  files : s'.files = s.files
  regs : s'.regs = s.regs
  heap : s'.heap = s.heap
  disk : s'.fs.disk = s.fs.disk

theorem Unchanged.refl (s : State) : Unchanged s s := ⟨rfl, rfl, rfl, rfl⟩

/-- The record a HELLO of the name binds: the one of that name, or the first when there is none. -/
def Binds (s : State) (fname : Bytes) (a : Addr) : Prop :=
  (∃ r, s.heap a = some r ∧ r.fname = fname) ∨ ((∀ i, ¬ s.Named i fname) ∧ s.regs[0]? = some a)

/-- A HELLO of the name leaves the registry as it is: the name is registered, or there is no room to register it. -/
def KeepsRegistry (s : State) (fname : Bytes) : Prop := (∃ i, s.Named i fname) ∨ s.fcbReg.len = nftpFiles

/-- The context under the name's hash is the one the HELLO creates, and its part file is empty. -/
def Fresh (s : State) (n : Packet) : Prop :=
  ∃ a w, Binds s n.name a ∧ pickName s n.name = .ok (some w) ∧ s.files (nftpHash n.name) = some (helloCtx n a w) ∧
    s.fs.disk (s.part w) = some []

/-- A HELLO that is accepted, or refused before it changes anything, or whose changes change nothing. -/
def CleanHello (h : Host) (s : State) (n : Packet) : Prop :=
  (s.files n.fileid).isSome ∨ (h.write ≠ .noOpen ∧ s.files (nftpHash n.name) = none) ∨
    (KeepsRegistry s n.name ∧ (h.write = .noOpen ∨ Fresh s n))

/-- What binding a record does to the registry, and to which record it binds. -/
theorem bindFcb_binds (hreg : RegOk s) {a : Addr} {s₁ : State} (hrun : bindFcb s n.name = .ok (some a, s₁)) :
    (∀ b, Binds s n.name b ↔ b = a) ∧ (KeepsRegistry s n.name → s₁ = s) ∧ (¬ KeepsRegistry s n.name → s₁.heap ≠ s.heap) := by
  obtain ⟨a', r, s₂, hrun', hr, -, hcase⟩ := bindFcb_spec hreg (cstr_cstr (n.fname.getD []))
  have hrun'' : bindFcb s n.name = .ok (some a', s₂) := hrun'
  rw [hrun''] at hrun
  cases hrun
  obtain ⟨i, hget⟩ := hreg.index hr
  rcases hcase with ⟨hn, rfl⟩ | ⟨hn, hnew, hcase⟩
  · have hnamed : s₁.Named i n.name := ⟨a, r, hget, hr, hn⟩
    refine ⟨fun b => ⟨?_, ?_⟩, fun _ => rfl, fun hk => absurd (.inl ⟨i, hnamed⟩) hk⟩
    · rintro (⟨rb, hrb, hnb⟩ | ⟨hnone, -⟩)
      · exact hreg.names b a rb r hrb hr (hnb.trans hn.symm)
      · exact absurd hnamed (hnone i)
    · rintro rfl
      exact .inl ⟨r, hr, hn⟩
  · have hfirst : s.regs[0]? = some a := by rw [← (hreg.star_iff hget hr).1 hn]; exact hget
    have hbinds : ∀ b, Binds s n.name b ↔ b = a := by
      intro b
      constructor
      · rintro (⟨rb, hrb, hnb⟩ | ⟨-, hb⟩)
        · obtain ⟨j, hj⟩ := hreg.index hrb
          exact absurd ⟨b, rb, hj, hrb, hnb⟩ (hnew j)
        · rw [hfirst] at hb
          cases hb
          rfl
      · rintro rfl
        exact .inr ⟨hnew, hfirst⟩
    rcases hcase with ⟨hl, rfl⟩ | ⟨hl, reg, -, rfl⟩
    · exact ⟨hbinds, fun _ => rfl, fun hk => absurd (.inr hl) hk⟩
    · refine ⟨hbinds, fun hk => ?_, fun _ heq => ?_⟩
      · rcases hk with ⟨j, hj⟩ | hk
        · exact absurd hj (hnew j)
        · omega
      · have h1 := congrFun heq s.brk
        replace h1 : Function.update s.heap s.brk (some ⟨n.name, r.cb, r.arg⟩) s.brk = s.heap s.brk := h1
        rw [Function.update_self] at h1
        exact Nat.lt_irrefl _ (hreg.lt_brk s.brk ((hreg.mem_iff s.brk).2 (by rw [← h1]; rfl)))

/-- **A HELLO that is refused changes nothing exactly when it is clean.** -/
theorem handleHello_unchanged (hi : Inv s) (hr : handleHello h s n = .ok r) :
    (r.rv ≠ .ok → Unchanged s r.st) ↔ CleanHello h s n := by
  rcases handleHello_cases hi.reg hr with ⟨h0, rfl⟩ | ⟨h0, a, s₁, w, path, hbind, hb, hpick, hpath, hcase⟩
  · exact ⟨fun _ => .inl h0, fun _ _ => .refl s⟩
  obtain ⟨rfl, -⟩ := partPath_eq_ok hpath
  obtain ⟨hbinds, hkeep, hchange⟩ := bindFcb_binds hi.reg hbind
  have hclean : CleanHello h s n ↔ (h.write ≠ .noOpen ∧ s.files (nftpHash n.name) = none) ∨
      (KeepsRegistry s n.name ∧ (h.write = .noOpen ∨ Fresh s n)) := by
    rw [CleanHello, h0]
    simp
  rw [hclean]
  rcases hcase with ⟨hw, rfl⟩ | ⟨hw, rv, rmsg, rlen, hcode, rfl⟩
  · constructor
    · intro hu
      refine .inr ⟨?_, .inl hw⟩
      by_contra hk
      exact hchange hk (hu nofun).heap
    · rintro (⟨hw', -⟩ | ⟨hk, -⟩) _
      · exact absurd hw hw'
      · rw [hkeep hk]; exact .refl s
  · rcases hcode with ⟨hsome, rfl, -, -⟩ | ⟨hnone, rfl, -, -⟩
    · -- the key is taken
      have hfresh : Fresh s n ↔
          s.files (nftpHash n.name) = some (helloCtx n a w) ∧ s.fs.disk (s.part w) = some [] := by
        constructor
        · rintro ⟨a', w', ha', hw', hf, hd⟩
          rw [(hbinds a').1 ha'] at hf
          rw [hpick] at hw'
          cases hw'
          exact ⟨hf, hd⟩
        · exact fun ⟨hf, hd⟩ => ⟨a, w, (hbinds a).2 rfl, hpick, hf, hd⟩
      rw [hfresh]
      constructor
      · intro hu
        have hu' := hu nofun
        refine .inr ⟨?_, .inr ⟨?_, ?_⟩⟩
        · by_contra hk
          exact hchange hk hu'.heap
        · rw [← hu'.files]
          exact Function.update_self ..
        · rw [← hu'.disk]
          exact created_self s.fs _
      · rintro (⟨-, hnone⟩ | ⟨hk, hw' | ⟨hf, hd⟩⟩) _
        · rw [hnone] at hsome; cases hsome
        · exact absurd hw' hw
        · have hs₁ := hkeep hk
          subst hs₁
          refine ⟨?_, rfl, rfl, ?_⟩
          · show Function.update s₁.files _ _ = s₁.files
            rw [← hf]
            exact Function.update_eq_self _ _
          · show Function.update s₁.fs.disk _ _ = s₁.fs.disk
            rw [← hd]
            exact Function.update_eq_self _ _
    · exact ⟨fun _ => .inl ⟨hw, hnone⟩, fun _ hne => absurd rfl hne⟩

def IsHello (msg : Bytes) : Prop := ∀ n, parse msg = .ok (.ok, n) → MsgType.ofCode n.type = some .hello

/-- **For every reachable state and every HELLO**: when it is refused nothing changes, exactly when the decoder refuses it
or it is clean. -/
theorem refused_hello_unchanged (hl : Live s) (hm : IsHello msg) (hr : receive h s msg = .ok r) :
    (r.rv ≠ .ok → Unchanged s r.st) ↔ ∀ n, parse msg = .ok (.ok, n) → CleanHello h s n := by
  rcases receive_cases hr with ⟨rv, n, hp, hrv, rfl⟩ | ⟨n, hp, hd⟩
  · refine ⟨fun _ n' hn' => ?_, fun _ _ => .refl s⟩
    rw [hp] at hn'
    cases hn'
    exact absurd rfl hrv
  · have ht := hm n hp
    unfold dispatch at hd
    simp only [ht] at hd
    rw [handleHello_unchanged hl.inv hd]
    exact (parse_forall hp).symm

theorem isHello_helloBytes (id : UInt8) (blocks : UInt16) (fname : Bytes) (hashcode : UInt32) :
    IsHello (helloBytes id blocks fname hashcode) := by
  intro n hp
  rw [parse_type hp]
  rfl

/-- A HELLO of a registered file, sent twice: the second is refused, and nothing has changed. -/
theorem refused_hello_registered : ∃ s r, Live s ∧ receive .good s (helloBytes 0 2 [0x66] 0) = .ok r ∧ r.rv = .ht ∧
    ((r.rv ≠ .ok → Unchanged s r.st) ↔ ∀ n, parse (helloBytes 0 2 [0x66] 0) = .ok (.ok, n) → CleanHello .good s n) := by
  obtain ⟨s, hl, r, hr, hrv⟩ := trace_live none 1 .empty
    [.register (some [0x66]) none 0, .msg .good (helloBytes 0 2 [0x66] 0)]
    (fun s => ∃ r, receive .good s (helloBytes 0 2 [0x66] 0) = .ok r ∧ r.rv = .ht) (by decide +kernel)
  exact ⟨s, r, hl, hr, hrv, refused_hello_unchanged hl (isHello_helloBytes 0 2 [0x66] 0) hr⟩

/-- A HELLO sent again after the first block: it is refused, the position goes back to 0 and the part file is emptied. -/
theorem resent_hello_resets : ∃ s r c c', Live s ∧ receive .good s (helloBytes 0 2 [0x66] 0) = .ok r ∧ r.rv = .ht ∧
    s.files (nftpHash [0x66]) = some c ∧ c.nextid = 1 ∧ s.fs.disk (s.part c.wfname) = some [1] ∧
    r.st.files (nftpHash [0x66]) = some c' ∧ c'.nextid = 0 ∧ r.st.fs.disk (s.part c.wfname) = some [] ∧
    ¬ (r.rv ≠ .ok → Unchanged s r.st) := by
  obtain ⟨s, hl, r, hr, hrv, c, hc, hnext, hpart, c', hc', hnext', hpart'⟩ := trace_live none 1 .empty
    [.msg .good (helloBytes 0 2 [0x66] 0), .msg .good (fileBytes [0x66] 0 [1])]
    (fun s => ∃ r, receive .good s (helloBytes 0 2 [0x66] 0) = .ok r ∧ r.rv = .ht ∧
      ∃ c, s.files (nftpHash [0x66]) = some c ∧ c.nextid = 1 ∧ s.fs.disk (s.part c.wfname) = some [1] ∧
      ∃ c', r.st.files (nftpHash [0x66]) = some c' ∧ c'.nextid = 0 ∧ r.st.fs.disk (s.part c.wfname) = some [])
    (by decide +kernel)
  refine ⟨s, r, c, c', hl, hr, hrv, hc, hnext, hpart, hc', hnext', hpart', fun hu => ?_⟩
  have hd := (hu (by rw [hrv]; decide)).disk
  rw [hd, hpart] at hpart'
  cases hpart'

end Nftp
