import Nftp.Names
/-!
# Inside — the paths the handler writes to

The handler puts the name of a HELLO behind the receive directory as it comes; only the calls of the API strip a name of
its directories.  `run_inside` says which runs write to files of the receive directory and to nothing else.
-/
namespace Nftp

open Lib

variable {h : Host} {s s' : State} {n : Packet} {msg : Bytes} {r : Ret} {c : Nctx}

/-- The path an operation creates, truncates, appends to or renames to. -/
def FileOp.target : FileOp → Option Path
  | .write path => some path
  | .append path => some path
  | .rename _ dst => some dst
  | .remove _ => none

def dot : Bytes := [0x2e]
def dotdot : Bytes := [0x2e, 0x2e]

/-- The name of an entry of a directory, other than the directory itself and its parent. -/
structure IsEntry (v : Bytes) : Prop where
  slash : slash ∉ v
  dot : v ≠ dot
  dotdot : v ≠ dotdot

/-- Every path the call writes to is that of an entry of the receive directory. -/
def WritesInside (s : State) (r : Ret) : Prop :=
  ∀ op ∈ r.st.fs.ops.drop s.fs.ops.length, ∀ q, op.target = some q → ∃ v, q = s.recvdir.getD [] ++ v ∧ IsEntry v

/-- A HELLO that gets as far as creating the part file names a file without a directory. -/
def HelloInside (h : Host) (s : State) (n : Packet) : Prop :=
  h.write ≠ .noOpen → s.files n.fileid = none → slash ∉ n.name

/-- A block that gets its file renamed is for a transfer saved under another name than `.` and `..`. -/
def BlockInside (h : Host) (s : State) (n : Packet) : Prop :=
  ∀ c, s.files n.fileid = some c → Completes h s.fs.disk (s.part c.wfname) c n → (s.fs.disk (s.part c.wfname)).isSome →
    h.rename = true → c.wfname ≠ dot ∧ c.wfname ≠ dotdot

/-- No transfer is saved under a name with a directory. -/
def NamesInside (s : State) : Prop := ∀ g c, s.files g = some c → slash ∉ c.wfname

/-! ## Names -/

theorem slash_numbered (f : Bytes) {j : ℕ} (hj : j < 100) : slash ∈ numbered f j ↔ slash ∈ f := by
  have hdigits : ∀ j < 100, slash ∉ ([0x5f, 0x30 + UInt8.ofNat (j / 10), 0x30 + UInt8.ofNat (j % 10)] : Bytes) := by decide
  rw [numbered, List.mem_append, or_iff_left (hdigits j hj)]

theorem slash_pickName {f w : Bytes} (hpick : pickName s f = .ok (some w)) : slash ∈ w ↔ slash ∈ f := by
  rcases (pickName_ok hpick).1 with rfl | ⟨j, -, hj, rfl⟩
  · rfl
  · exact slash_numbered f hj

/-- The name of a part file is never `.` or `..`. -/
theorem isEntry_part {w : Bytes} : IsEntry (w ++ dotPart) ↔ slash ∉ w := by
  have hlen : 5 ≤ (w ++ dotPart).length := by
    rw [List.length_append]
    exact Nat.le_add_left 5 _
  constructor
  · exact fun he hm => he.slash (List.mem_append_left _ hm)
  · refine fun hs => ⟨fun hm => ?_, fun he => ?_, fun he => ?_⟩
    · rcases List.mem_append.1 hm with hm | hm
      · exact hs hm
      · exact absurd hm (by decide)
    · rw [he] at hlen
      exact absurd hlen (by decide)
    · rw [he] at hlen
      exact absurd hlen (by decide)

theorem entry_part {w : Bytes} : (∃ v, s.part w = s.recvdir.getD [] ++ v ∧ IsEntry v) ↔ slash ∉ w := by
  rw [← isEntry_part]
  constructor
  · rintro ⟨v, hv, he⟩
    rwa [List.append_cancel_left hv]
  · exact fun he => ⟨_, rfl, he⟩

theorem entry_final {w : Bytes} : (∃ v, s.final w = s.recvdir.getD [] ++ v ∧ IsEntry v) ↔ IsEntry w := by
  constructor
  · rintro ⟨v, hv, he⟩
    rwa [List.append_cancel_left hv]
  · exact fun he => ⟨_, rfl, he⟩

/-! ## One message -/

theorem writesInside_same (hfs : r.st.fs = s.fs) : WritesInside s r := by
  intro op hop
  rw [hfs, List.drop_length] at hop
  cases hop

theorem writesInside_appends {w : Bytes} {m : ℕ} (hs : slash ∉ w)
    (hops : r.st.fs.ops = s.fs.ops ++ List.replicate m (.append (s.part w))) : WritesInside s r := by
  intro op hop q hq
  rw [hops, List.drop_left] at hop
  rw [List.eq_of_mem_replicate hop] at hq
  cases hq
  exact entry_part.2 hs

/-- **A HELLO writes inside the directory exactly when it names a file without one.** -/
theorem handleHello_inside (hi : Inv s) (hr : handleHello h s n = .ok r) : WritesInside s r ↔ HelloInside h s n := by
  rcases handleHello_fs hi hr with ⟨hno, hfs⟩ | ⟨hw, h0, w, hpick, hfs⟩
  · refine ⟨fun _ hw h0 => ?_, fun _ => writesInside_same hfs⟩
    rcases hno with hsome | hno
    · rw [h0] at hsome
      cases hsome
    · exact absurd hno hw
  · have hops : r.st.fs.ops.drop s.fs.ops.length = [.write (s.part w)] := by
      rw [hfs, Fs.created, List.drop_left]
    have hslash : HelloInside h s n ↔ slash ∉ w := by
      rw [slash_pickName hpick]
      exact ⟨fun hin => hin hw h0, fun hs _ _ => hs⟩
    rw [hslash, ← entry_part (s := s)]
    constructor
    · intro hin
      exact hin (.write (s.part w)) (by rw [hops]; exact List.mem_cons_self) _ rfl
    · intro he op hop q hq
      rw [hops, List.mem_singleton] at hop
      rw [hop] at hq
      cases hq
      exact he

theorem handleHello_namesInside (hi : Inv s) (hn : NamesInside s) (hin : HelloInside h s n)
    (hr : handleHello h s n = .ok r) : NamesInside r.st := by
  rcases handleHello_cases hi.reg hr with ⟨-, rfl⟩ | ⟨h0, a, s₁, w, path, -, hb, hpick, -, ⟨-, rfl⟩ | ⟨hw, _, _, _, -, rfl⟩⟩
  · exact hn
  · intro g d hg
    exact hn g d (by rw [hb.eq] at hg; exact hg)
  · intro g d hg
    replace hg : Function.update s.files (nftpHash n.name) (some (helloCtx n a w)) g = some d := hg
    by_cases hgk : g = nftpHash n.name
    · rw [hgk, Function.update_self] at hg
      cases hg
      exact fun hm => hin hw h0 ((slash_pickName hpick).1 hm)
    · rw [Function.update_of_ne hgk] at hg
      exact hn g d hg

/-- **A block writes inside the directory exactly when it renames nothing to the directory or its parent.** -/
theorem handleFile_inside (hi : Inv s) (hn : NamesInside s) {b : Bytes} (hb : n.content = some b)
    (hl : b.length = n.ctlen) (hr : handleFile h s n = .ok r) : WritesInside s r ↔ BlockInside h s n := by
  cases hc : s.files n.fileid with
  | none =>
    have hst : r.st = s := by
      rcases handleFile_cases hr with ⟨-, rfl⟩ | ⟨c, _, _, _, _, hc', -⟩
      · rfl
      · rw [hc] at hc'; cases hc'
    refine ⟨fun _ c hc' => ?_, fun _ => writesInside_same (by rw [hst])⟩
    rw [hc] at hc'
    cases hc'
  | some c =>
    have hs := hn _ c hc
    have hone : BlockInside h s n ↔ (Completes h s.fs.disk (s.part c.wfname) c n →
        (s.fs.disk (s.part c.wfname)).isSome → h.rename = true → c.wfname ≠ dot ∧ c.wfname ≠ dotdot) :=
      ⟨fun hin => hin c hc, fun hin d hd => by rw [hc] at hd; cases hd; exact hin⟩
    rw [hone]
    obtain ⟨c', fs', -, happ, hcase⟩ := handleFile_outcome hi hb hl hc hr
    obtain ⟨m, hops⟩ := happ.ops
    rcases hcase with ⟨hnc, hst⟩ | ⟨-, hno, -, hst⟩ | ⟨hcomp, old, hold, hren, -, hfs, -⟩
    · exact ⟨fun _ hcomp => absurd hcomp hnc, fun _ => writesInside_appends hs (by rw [hst]; exact hops)⟩
    · refine ⟨fun _ _ hsome hren => ?_, fun _ => writesInside_appends hs (by rw [hst]; exact hops)⟩
      rcases hno with hno | hno
      · rw [hno] at hsome
        cases hsome
      · rw [hren] at hno
        cases hno
    · have hdrop : r.st.fs.ops.drop s.fs.ops.length =
          List.replicate m (.append (s.part c.wfname)) ++ [.rename (s.part c.wfname) (s.final c.wfname)] := by
        rw [hfs, Fs.renamed, hops, List.append_assoc, List.drop_left]
      constructor
      · intro hin _ _ _
        have he := entry_final.1 (hin (.rename (s.part c.wfname) (s.final c.wfname))
          (by rw [hdrop]; exact List.mem_append_right _ List.mem_cons_self) _ rfl)
        exact ⟨he.dot, he.dotdot⟩
      · intro hin op hop q hq
        obtain ⟨hdot, hdotdot⟩ := hin hcomp (by rw [hold]; rfl) hren
        rw [hdrop] at hop
        rcases List.mem_append.1 hop with hop | hop
        · rw [List.eq_of_mem_replicate hop] at hq
          cases hq
          exact entry_part.2 hs
        · rw [List.mem_singleton.1 hop] at hq
          cases hq
          exact entry_final.2 ⟨hs, hdot, hdotdot⟩

/-! ## Runs -/

/-- Every path a call on a message writes to is that of an entry of the receive directory. -/
def Event.WritesInside (s : State) : Event → Prop
  | .msg h m => ∀ r, receive h s m = .ok r → Nftp.WritesInside s r
  | _ => True

def Event.NamesInside (s : State) : Event → Prop
  | .msg h m => ∀ n, parse m = .ok (.ok, n) →
      (MsgType.ofCode n.type = some .hello → HelloInside h s n) ∧ (n.IsBlock → BlockInside h s n)
  | _ => True

/-- **A message writes inside the directory exactly when its names are inside**, and then those of the transfers stay
so. -/
theorem receive_inside (hi : Inv s) (hn : NamesInside s) (hr : receive h s msg = .ok r) :
    (WritesInside s r ↔ (Event.msg h msg).NamesInside s) ∧ ((Event.msg h msg).NamesInside s → NamesInside r.st) := by
  rcases receive_kinds hr with ⟨hst, hno⟩ | ⟨n, hp, ht, hr⟩ | ⟨n, b, hp, hblock, hb, hl, hr⟩
  · refine ⟨⟨fun _ n hp => ?_, fun _ => writesInside_same (by rw [hst])⟩, fun _ => by rw [hst]; exact hn⟩
    exact ⟨fun ht => absurd ht (hno n hp).1, fun hblock => absurd hblock (hno n hp).2⟩
  · have hone : (Event.msg h msg).NamesInside s ↔ HelloInside h s n := by
      refine (parse_forall hp).trans ⟨fun hin => hin.1 ht, fun hin => ⟨fun _ => hin, fun hblock => ?_⟩⟩
      exact absurd ht hblock.not_hello
    rw [hone]
    exact ⟨handleHello_inside hi hr, fun hin => handleHello_namesInside hi hn hin hr⟩
  · have hone : (Event.msg h msg).NamesInside s ↔ BlockInside h s n := by
      refine (parse_forall hp).trans ⟨fun hin => hin.2 hblock, fun hin => ⟨fun ht => ?_, fun _ => hin⟩⟩
      exact absurd ht hblock.not_hello
    rw [hone]
    refine ⟨handleFile_inside hi hn hb hl hr, fun _ g d hg => ?_⟩
    obtain ⟨d', hd', hw⟩ := handleFile_wfname hi hb hl hr hg
    rw [← hw]
    exact hn g d' hd'

theorem event_inside {e : Event} (hi : Inv s) (hn : NamesInside s) (hs : Step s e s') :
    (e.WritesInside s ↔ e.NamesInside s) ∧ (e.NamesInside s → NamesInside s') := by
  rcases step_cases hi hs with ⟨h, m, r, rfl, hr, rfl⟩ | ⟨he, hq⟩
  · obtain ⟨hiff, hkeep⟩ := receive_inside hi hn hr
    refine ⟨?_, hkeep⟩
    rw [← hiff]
    exact ⟨fun hin => hin r hr, fun hin r' hr' => by rw [hr] at hr'; cases hr'; exact hin⟩
  · refine ⟨?_, fun _ g c hg => hn g c (hq.files g c hg)⟩
    cases e with
    | msg h m => exact absurd rfl (he h m)
    | register fname cb arg => exact Iff.rfl
    | unregister fname => exact Iff.rfl
    | recvStop h fname => exact Iff.rfl
    | maker h fpath t key n => exact Iff.rfl
    | setRecvdir dir => exact Iff.rfl
    | setBlocksz blksz => exact Iff.rfl
    | disk disk => exact Iff.rfl

/-- **In a run from `nftp_proto_init` the handler writes inside the receive directory exactly when the names in its
messages are inside.** -/
theorem run_inside {s₀ : State} {es : List Event} (hb : Booted s₀) :
    Run (fun s e s' => Step s e s' ∧ e.WritesInside s) s₀ es s ↔
      Run (fun s e s' => Step s e s' ∧ e.NamesInside s) s₀ es s := by
  refine Run.congr (I := fun s => Inv s ∧ NamesInside s) (fun s e s' hi he => ?_) (fun s e s' hi => ?_)
    ⟨booted_inv hb, fun g c hg => ?_⟩
  · obtain ⟨hiff, hkeep⟩ := event_inside hi.1 hi.2 he.1
    exact ⟨step_inv hi.1 he.1, hkeep (hiff.1 he.2)⟩
  · exact and_congr_right fun hs => (event_inside hi.1 hi.2 hs).1
  · rw [booted_files hb] at hg
    cases hg

instance (h : Host) (s : State) (n : Packet) : Decidable (HelloInside h s n) := inferInstanceAs (Decidable (_ → _ → _))

instance (h : Host) (s : State) (n : Packet) : Decidable (BlockInside h s n) :=
  inferInstanceAs (Decidable (∀ c, s.files n.fileid = some c → _ → _ → _ → _))

instance (s : State) (e : Event) : Decidable (e.NamesInside s) :=
  match e with
  | .msg _ m => inferInstanceAs (Decidable (∀ n, parse m = .ok (.ok, n) → _))
  | .register .. => isTrue trivial
  | .unregister _ => isTrue trivial
  | .recvStop .. => isTrue trivial
  | .maker .. => isTrue trivial
  | .setRecvdir _ => isTrue trivial
  | .setBlocksz _ => isTrue trivial
  | .disk _ => isTrue trivial

/-- A file `f` of one block, received in the directory `d/`. -/
theorem run_inside_one : ∃ s₀ s, Booted s₀ ∧ Run (fun s e s' => Step s e s' ∧ e.WritesInside s) s₀
      [.msg .good (helloBytes 0 1 [0x66] (nftpHash [1, 2])), .msg .good (fileBytes [0x66] 0 [1, 2])] s ∧
    s.fs.disk [0x64, 0x2f, 0x66] = some [1, 2] := by
  obtain ⟨s₀, s, hb, hrun, hd⟩ := trace_sound (fun s e => e.NamesInside s) (some [0x64, 0x2f]) 1 .empty
    [.msg .good (helloBytes 0 1 [0x66] (nftpHash [1, 2])), .msg .good (fileBytes [0x66] 0 [1, 2])]
    (fun s => s.fs.disk [0x64, 0x2f, 0x66] = some [1, 2]) (by decide +kernel)
  exact ⟨s₀, s, hb, (run_inside hb).2 hrun, hd⟩

/-- A HELLO of `../x` is accepted, and creates `d/../x.part`. -/
theorem parent_written : ∃ s r, Live s ∧ s.recvdir = some [0x64, slash] ∧
    receive .good s (helloBytes 0 1 [0x2e, 0x2e, slash, 0x78] 0) = .ok r ∧ r.rv = .ok ∧
    FileOp.write [0x64, slash, 0x2e, 0x2e, slash, 0x78, 0x2e, 0x70, 0x61, 0x72, 0x74] ∈ r.st.fs.ops.drop s.fs.ops.length ∧
    ¬ WritesInside s r := by
  obtain ⟨s, hl, hdir, r, hr, hrv, hop⟩ := trace_live (some [0x64, slash]) 1 .empty []
    (fun s => s.recvdir = some [0x64, slash] ∧
      ∃ r, receive .good s (helloBytes 0 1 [0x2e, 0x2e, slash, 0x78] 0) = .ok r ∧ r.rv = .ok ∧
        FileOp.write [0x64, slash, 0x2e, 0x2e, slash, 0x78, 0x2e, 0x70, 0x61, 0x72, 0x74] ∈ r.st.fs.ops.drop s.fs.ops.length)
    (by decide +kernel)
  refine ⟨s, r, hl, hdir, hr, hrv, hop, fun hin => ?_⟩
  obtain ⟨v, hv, he⟩ := hin _ hop _ rfl
  rw [hdir] at hv
  have hv' : v = [0x2e, 0x2e, slash, 0x78, 0x2e, 0x70, 0x61, 0x72, 0x74] :=
    ((List.append_right_inj [0x64, slash]).1 hv).symm
  exact he.slash (by rw [hv']; decide)

end Nftp
