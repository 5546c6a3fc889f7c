import Nftp.Invariant
/-!
# Trace — runs that compute

A run given by its list of events, evaluated; `trace_sound` turns an evaluation into a `Run` from `nftp_proto_init`.
The message builders write HELLO and FILE messages for such runs.
-/
namespace Nftp

open Lib

def bootWith (dir : Option Bytes) (blksz : UInt32) (fs : Fs) : Option State :=
  match protoInit (State.boot (Option.map cstr dir) blksz fs) with
  | .ok (.ok, s) => some s
  | _ => none

/-- Take the events in order, as long as each call returns and passes `ok`. -/
def State.play (ok : State → Event → Bool) (s : State) : List Event → Option State
  | [] => some s
  | e :: es =>
    match s.after e with
    | .ok s' => if ok s e then s'.play ok es else none
    | .error _ => none

def faults {α : Type} (x : Except Fault α) (e : Fault) : Bool :=
  match x with
  | .error e' => e' = e
  | .ok _ => false

theorem faults_iff {α : Type} {x : Except Fault α} {e : Fault} : faults x e = true ↔ x = .error e := by
  cases x with
  | error e' => simp [faults]
  | ok a => simp [faults]

theorem play_sound {ok : State → Event → Bool} {s' : State} : ∀ {es : List Event} {s : State}, s.play ok es = some s' →
    Run (fun s e s' => Step s e s' ∧ ok s e = true) s es s'
  | [], s, h => by cases h; exact .refl
  | e :: es, s, h => by
    unfold State.play at h
    cases ha : s.after e with
    | error f => rw [ha] at h; cases h
    | ok s₁ =>
      simp only [ha] at h
      split at h
      · rename_i hok
        exact (Run.single ⟨ha, hok⟩).append (play_sound h)
      · cases h

/-- **An evaluated run is a run.** -/
theorem trace_sound (ok : State → Event → Prop) [∀ s e, Decidable (ok s e)] (dir : Option Bytes) (blksz : UInt32) (fs : Fs)
    (es : List Event) (P : State → Prop) [DecidablePred P]
    (h : ((bootWith dir blksz fs).bind (·.play (fun s e => decide (ok s e)) es)).map (fun s => decide (P s)) = some true) :
    ∃ s₀ s, Booted s₀ ∧ Run (fun s e s' => Step s e s' ∧ ok s e) s₀ es s ∧ P s := by
  obtain ⟨s, hs, hP⟩ := Option.map_eq_some_iff.1 h
  obtain ⟨s₀, hb, hplay⟩ := Option.bind_eq_some_iff.1 hs
  refine ⟨s₀, s, ⟨dir, blksz, fs, ?_⟩, (play_sound hplay).mono fun _ _ _ he => ⟨he.1, of_decide_eq_true he.2⟩,
    of_decide_eq_true hP⟩
  unfold bootWith at hb
  split at hb
  · rename_i s₁ he
    cases hb
    exact he
  · cases hb

theorem trace_run (dir : Option Bytes) (blksz : UInt32) (fs : Fs) (es : List Event) (P : State → Prop) [DecidablePred P]
    (h : ((bootWith dir blksz fs).bind (·.play (fun _ _ => decide True) es)).map (fun s => decide (P s)) = some true) :
    ∃ s₀ s, Booted s₀ ∧ Run Step s₀ es s ∧ P s := by
  obtain ⟨s₀, s, hb, hrun, hP⟩ := trace_sound (fun _ _ => True) dir blksz fs es P h
  exact ⟨s₀, s, hb, hrun.mono fun _ _ _ he => he.1, hP⟩

theorem trace_live (dir : Option Bytes) (blksz : UInt32) (fs : Fs) (es : List Event) (P : State → Prop) [DecidablePred P]
    (h : ((bootWith dir blksz fs).bind (·.play (fun _ _ => decide True) es)).map (fun s => decide (P s)) = some true) :
    ∃ s, Live s ∧ P s := by
  obtain ⟨s₀, s, hb, hrun, hP⟩ := trace_run dir blksz fs es P h
  exact ⟨s, ⟨s₀, es, hb, hrun⟩, hP⟩

/-! ## Conditions that compute -/

instance {m : Bytes} {P : Packet → Prop} [DecidablePred P] : Decidable (∀ n, parse m = .ok (.ok, n) → P n) :=
  match hp : parse m with
  | .error _ => isTrue fun n hn => by cases hn
  | .ok (rv, n) =>
    if hrv : rv = .ok then
      decidable_of_iff (P n) ⟨fun h' n' hn' => by cases hn'; exact h', fun h' => h' n (by rw [hrv])⟩
    else isTrue fun n' hn' => by cases hn'; exact absurd rfl hrv

instance {o : Option Nctx} {P : Nctx → Prop} [DecidablePred P] : Decidable (∀ c, o = some c → P c) :=
  inferInstanceAs (Decidable (∀ c ∈ o, P c))

instance {α : Type} {x : Except Fault α} {e : Fault} : Decidable (x = .error e) := decidable_of_iff _ faults_iff

instance {α : Type} {x : Except Fault α} {P : α → Prop} [DecidablePred P] : Decidable (∃ a, x = .ok a ∧ P a) :=
  match x with
  | .error _ => isFalse fun ⟨_, h, _⟩ => by cases h
  | .ok a => decidable_of_iff (P a) ⟨fun h => ⟨a, rfl, h⟩, fun ⟨b, h, hb⟩ => by cases h; exact hb⟩

instance {α : Type} {x : Except Fault (Rv × α)} {rv : Rv} {P : α → Prop} [DecidablePred P] :
    Decidable (∃ a, x = .ok (rv, a) ∧ P a) :=
  decidable_of_iff (∃ y, x = .ok y ∧ y.1 = rv ∧ P y.2)
    ⟨fun ⟨⟨_, a⟩, h, hrv, ha⟩ => ⟨a, by rw [h, ← hrv], ha⟩, fun ⟨a, h, ha⟩ => ⟨(rv, a), h, rfl, ha⟩⟩

/-! ## Messages -/

def helloBytes (id : UInt8) (blocks : UInt16) (fname : Bytes) (hashcode : UInt32) : Bytes :=
  1 :: (putU32 (UInt32.ofNat (14 + fname.length)) ++ id :: (putU16 blocks ++
    (putU16 (UInt16.ofNat fname.length) ++ (fname ++ putU32 hashcode))))

theorem parse_helloBytes (id : UInt8) (blocks : UInt16) {fname : Bytes} (hashcode : UInt32) (hlen : fname.length < 2 ^ 16)
    (hc : cstr fname = fname) : ∃ n, parse (helloBytes id blocks fname hashcode) = .ok (.ok, n) ∧
      MsgType.ofCode n.type = some .hello ∧ n.name = fname ∧ n.blocks = blocks ∧ n.hashcode = hashcode := by
  let p : Packet := { Packet.alloc with
    type := MsgType.hello.code, len := UInt32.ofNat (14 + fname.length), id := id, blocks := blocks, fname := some fname,
    namelen := UInt16.ofNat fname.length, hashcode := hashcode }
  have hname : p.namelen.toNat = fname.length := UInt16.toNat_ofNat_of_lt' hlen
  have hsized : p.Sized .hello := by
    refine ⟨rfl, ?_, fun _ => ⟨fname, rfl, hname.symm⟩, nofun⟩
    show (UInt32.ofNat (14 + fname.length)).toNat = 10 + p.namelen.toNat + 4
    have hlt : 14 + fname.length < 2 ^ 32 := by omega
    rw [hname, UInt32.toNat_ofNat_of_lt' hlt]
    omega
  have hwire : p.wire .hello = helloBytes id blocks fname hashcode := by
    rw [Packet.wire, body_hello hsized.carries]
    rfl
  obtain ⟨n, hp, htype, -, hblocks, -, hf, hh⟩ := parse_wire hsized (by rw [Packet.size, hname]; omega)
  rw [hwire] at hp
  refine ⟨n, hp, by rw [htype]; rfl, ?_, hblocks, hh⟩
  rw [Packet.name, hf]
  exact hc

/-- A FILE with a block of the file of a name. -/
def fileBytes (fname : Bytes) (blockseq : UInt16) (content : Bytes) : Bytes :=
  3 :: (putU32 (UInt32.ofNat (15 + content.length)) ++ (putU32 (nftpHash fname) ++ (putU16 blockseq ++
    (putU32 (UInt32.ofNat content.length) ++ content))))

theorem parse_fileBytes (fname : Bytes) (blockseq : UInt16) {content : Bytes} (hlen : content.length < 2 ^ 31 - 15) :
    ∃ n, parse (fileBytes fname blockseq content) = .ok (.ok, n) ∧ MsgType.ofCode n.type = some .file ∧
      n.fileid = nftpHash fname ∧ n.blockseq = blockseq ∧ n.content = some content := by
  let p : Packet := { Packet.alloc with
    type := MsgType.file.code, len := UInt32.ofNat (15 + content.length), fileid := nftpHash fname, blockseq := blockseq,
    ctlen := content.length, content := some content }
  have hsized : p.Sized .file := by
    refine ⟨rfl, ?_, nofun, fun _ => ⟨content, rfl, rfl⟩⟩
    show (UInt32.ofNat (15 + content.length)).toNat = 11 + 4 + content.length
    rw [UInt32.toNat_ofNat_of_lt' (show 15 + content.length < 2 ^ 32 by omega)]
  have hwire : p.wire .file = fileBytes fname blockseq content := by
    rw [Packet.wire, body_file hsized.carries.1]
    rfl
  obtain ⟨n, hp, htype, hid, hseq, -, hc⟩ := parse_wire hsized (show 11 + 4 + content.length < 2 ^ 31 by omega)
  rw [hwire] at hp
  exact ⟨n, hp, by rw [htype]; rfl, hid, hseq, hc⟩

def Fs.empty : Fs := { disk := fun _ => none, ops := [] }

end Nftp
