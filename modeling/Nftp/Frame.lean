import Nftp.Invariant
import Nftp.Lib.Fallible
/-!
# Frame — what has nothing to do with the tables

The calls that neither read nor change `files` and `senderfiles` do the same whatever these hold: with other tables put
into the state they fail alike, or return the same and leave the tables put there.
-/
namespace Nftp

open Lib

def State.withTables (s : State) (files : UInt32 → Option Nctx) (senderfiles : UInt32 → Option Bytes) : State :=
  { s with files := files, senderfiles := senderfiles }

variable {s : State} {f : UInt32 → Option Nctx} {g : UInt32 → Option Bytes} {α : Type}

@[simp] theorem withTables_recvdir : (s.withTables f g).recvdir = s.recvdir := rfl
@[simp] theorem withTables_blocksz : (s.withTables f g).blocksz = s.blocksz := rfl
@[simp] theorem withTables_files : (s.withTables f g).files = f := rfl
@[simp] theorem withTables_senderfiles : (s.withTables f g).senderfiles = g := rfl
@[simp] theorem withTables_fcbReg : (s.withTables f g).fcbReg = s.fcbReg := rfl
@[simp] theorem withTables_heap : (s.withTables f g).heap = s.heap := rfl
@[simp] theorem withTables_brk : (s.withTables f g).brk = s.brk := rfl
@[simp] theorem withTables_fs : (s.withTables f g).fs = s.fs := rfl
@[simp] theorem withTables_calls : (s.withTables f g).calls = s.calls := rfl

/-- The results differ in the tables only, those put there. -/
def Tabled (f : UInt32 → Option Nctx) (g : UInt32 → Option Bytes) (x y : α × State) : Prop :=
  y = (x.1, x.2.withTables f g)

/-- The two computations fail alike, or return results that differ in the tables only. -/
abbrev Framed (f : UInt32 → Option Nctx) (g : UInt32 → Option Bytes) (x y : Except Fault (α × State)) : Prop :=
  Alike Eq (Tabled f g) x y

/-! ## The registry -/

@[simp] theorem deref_withTables (p : Option Addr) : (s.withTables f g).deref p = s.deref p := rfl

theorem findName_withTables (fname : Bytes) : ∀ n i, findName (s.withTables f g) fname i n = findName s fname i n
  | 0, _ => rfl
  | n + 1, i => by simp only [findName, withTables_fcbReg, deref_withTables, findName_withTables fname n]

theorem iterName_withTables (fname : Bytes) :
    ∀ n i found, iterName (s.withTables f g) fname i found n = iterName s fname i found n
  | 0, _, _ => rfl
  | n + 1, i, found => by simp only [iterName, withTables_fcbReg, deref_withTables, iterName_withTables fname n]

theorem findCb_withTables (a : Addr) : ∀ n i, findCb (s.withTables f g) a i n = findCb s a i n
  | 0, _ => rfl
  | n + 1, i => by simp only [findCb, withTables_fcbReg, findCb_withTables a n]

theorem freeCb_framed (p : Option Addr) :
    Alike Eq (fun x y => y = x.withTables f g) (s.freeCb p) ((s.withTables f g).freeCb p) := by
  refine Alike.bind_same (x := s.deref p) fun x _ => ?_
  exact .ok rfl

theorem pushCb_framed (r : FileCb) : Framed f g (pushCb s r) (pushCb (s.withTables f g) r) := by
  refine Alike.bind_same (x := vecPush s.fcbReg s.brk .tail) fun x _ => ?_
  exact Alike.ite (fun _ => .ok rfl) fun _ => .ok rfl

theorem protoRegister_framed (fname : Option Bytes) (cb : Option Nat) (arg : Nat) :
    Framed f g (protoRegister s fname cb arg) (protoRegister (s.withTables f g) fname cb arg) := by
  cases fname with
  | none => exact .ok rfl
  | some fname =>
    refine Alike.ite (fun _ => ?_) fun _ => ?_
    · refine Alike.ite (fun _ => pushCb_framed _) fun _ => ?_
      refine Alike.bind_same (x := vecGet s.fcbReg 0) fun x _ => ?_
      refine Alike.ite (fun _ => .ok rfl) fun _ => ?_
      refine Alike.bind_same (x := s.deref x.2) fun y _ => ?_
      exact Alike.ite (fun _ => .ok rfl) fun _ => .ok rfl
    · rw [findName_withTables]
      refine Alike.bind_same fun x _ => ?_
      refine Alike.ite (fun _ => .ok rfl) fun _ => ?_
      exact Alike.ite (fun _ => .ok rfl) fun _ => pushCb_framed _

theorem protoUnregister_framed (fname : Option Bytes) :
    Framed f g (protoUnregister s fname) (protoUnregister (s.withTables f g) fname) := by
  cases fname with
  | none => exact .ok rfl
  | some fname =>
    refine Alike.ite (fun _ => .ok rfl) fun _ => ?_
    rw [findName_withTables]
    refine Alike.bind_same fun x _ => ?_
    refine Alike.ite (fun _ => .ok rfl) fun _ => ?_
    obtain ⟨rv, found⟩ := x
    cases found with
    | none => exact .ok rfl
    | some i =>
      refine Alike.bind_same (x := vecDelete s.fcbReg i) fun y _ => ?_
      obtain ⟨rv', fcb, reg⟩ := y
      refine Alike.bind (freeCb_framed (s := { s with fcbReg := reg }) fcb) fun t u htu => ?_
      exact .ok (by rw [htu]; rfl)

theorem bindFcb_framed (fname : Bytes) : Framed f g (bindFcb s fname) (bindFcb (s.withTables f g) fname) := by
  unfold bindFcb
  rw [iterName_withTables]
  refine Alike.bind_same fun found _ => ?_
  cases found with
  | some a => exact .ok rfl
  | none =>
    refine Alike.bind_same (x := vecGet s.fcbReg 0) fun x _ => ?_
    refine Alike.bind_same (x := s.deref x.2) fun y _ => ?_
    refine Alike.bind (protoRegister_framed (some fname) y.2.cb y.2.arg) fun t u htu => ?_
    cases htu
    exact .ok rfl

/-- The state a callback has run in differs in the tables only. -/
theorem runCb_framed (ctx : Nctx) :
    Alike Eq (fun x y => y = x.withTables f g) (runCb s ctx) (runCb (s.withTables f g) ctx) := by
  unfold runCb
  cases ctx.fcb with
  | none => exact .ok rfl
  | some a =>
    refine Alike.bind_same (x := s.deref (some a)) fun x _ => ?_
    have hfind :=
      findCb_withTables (s := { s with calls := s.calls ++ callOf ctx.fileid x.2 }) (f := f) (g := g) a s.fcbReg.len 0
    refine Alike.bind (R := Eq)
      (y := findCb { s.withTables f g with calls := s.calls ++ callOf ctx.fileid x.2 } a 0 s.fcbReg.len)
      ?_ fun found _ hfound => ?_
    · rw [show ({ s.withTables f g with calls := s.calls ++ callOf ctx.fileid x.2 } : State) =
        State.withTables { s with calls := s.calls ++ callOf ctx.fileid x.2 } f g from rfl, hfind]
      exact Alike.refl (fun _ => rfl) _
    · cases hfound
      match found with
      | none => exact freeCb_framed (s := { s with calls := s.calls ++ callOf ctx.fileid x.2 }) (some a)
      | some 0 => exact .ok rfl
      | some (i + 1) =>
        refine Alike.bind_same (x := vecDelete s.fcbReg ((i + 1 : Nat) : Int)) fun y _ => ?_
        exact freeCb_framed (s := { s with calls := s.calls ++ callOf ctx.fileid x.2, fcbReg := y.2.2 }) (some a)

theorem dropCb_framed (ctx : Nctx) :
    Alike Eq (fun x y => y = x.withTables f g) (dropCb s ctx) (dropCb (s.withTables f g) ctx) := by
  unfold dropCb
  cases ctx.fcb with
  | none => exact .ok rfl
  | some a =>
    dsimp only
    rw [findCb_withTables]
    refine Alike.bind_same fun found _ => ?_
    match found with
    | none => exact .ok rfl
    | some 0 => exact .ok rfl
    | some (i + 1) =>
      refine Alike.bind_same (x := vecDelete s.fcbReg ((i + 1 : Nat) : Int)) fun y _ => ?_
      exact freeCb_framed (s := { s with fcbReg := y.2.2 }) y.2.1

/-! ## Messages -/

/-- Two answers that differ in the tables only. -/
def Ret.Tabled (f : UInt32 → Option Nctx) (g : UInt32 → Option Bytes) (x y : Ret) : Prop :=
  y = { x with st := x.st.withTables f g }

theorem encodeReply_framed (p : Packet) : Alike Eq (Ret.Tabled f g) (encodeReply s p) (encodeReply (s.withTables f g) p) := by
  refine Alike.bind_same (x := encode p) fun x _ => ?_
  obtain ⟨rv, v, alen⟩ := x
  have hsame : Ret.Tabled f g ⟨.ok, some v, cInt alen, s⟩ ⟨.ok, some v, cInt alen, s.withTables f g⟩ := by
    simp only [Ret.Tabled]
  exact Alike.ite (fun _ => .ok rfl) fun _ => .ok hsame

theorem makeFile_framed (h : Host) (fpath fname : Bytes) (t : MsgType) (n : Int) :
    Alike Eq (Ret.Tabled f g) (makeFile h s fpath fname t n) (makeFile h (s.withTables f g) fpath fname t n) := by
  refine Alike.ite (fun _ => .ok rfl) fun _ => ?_
  refine Alike.bind_same (x := fileReadblk h.readblk s.fs.disk s.blocksz fpath n) fun x _ => ?_
  exact Alike.ite (fun _ => .ok rfl) fun _ => encodeReply_framed _

/-- **Making any message but a HELLO.** -/
theorem protoMaker_framed (h : Host) {fpath : Option Bytes} {t : Option MsgType} (ht : fpath = none ∨ t ≠ some .hello)
    (key n : Int) :
    Alike Eq (Ret.Tabled f g) (protoMaker h s fpath t key n) (protoMaker h (s.withTables f g) fpath t key n) := by
  cases fpath with
  | none => exact .ok rfl
  | some fpath =>
    have ht' : t ≠ some .hello := ht.resolve_left (by simp)
    cases t with
    | none => exact encodeReply_framed _
    | some t =>
      cases t with
      | hello => exact absurd rfl ht'
      | ack => exact encodeReply_framed _
      | file => exact makeFile_framed h _ _ _ _
      | fin => exact makeFile_framed h _ _ _ _
      | giveme => exact Alike.ite (fun _ => .ok rfl) fun _ => encodeReply_framed _

end Nftp
