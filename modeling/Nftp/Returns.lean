import Nftp.Bounds
import Nftp.Ending
import Nftp.Fits
/-!
# Returns — when a call returns

A call that does not return has run into undefined behaviour.  `Event.Careful` says what a call needs in order to return, in
terms of its arguments, of the answers of the C library and of the state before it; nothing else makes a call fail, and
nothing less is enough.
-/
namespace Nftp

open Lib

variable {h : Host} {s : State} {n : Packet} {msg : Bytes} {c : Nctx} {a : Addr} {p : Path} {i : Int}

theorem Defined.bind {α β : Type} {x : Except Fault α} {f : α → Except Fault β} (hx : Defined x)
    (hf : ∀ a, x = .ok a → Defined (f a)) : Defined (x >>= f) := by
  obtain ⟨a, ha⟩ := hx
  exact defined_bind.2 ⟨a, ha, hf a ha⟩

theorem Defined.left {α β : Type} {x : Except Fault α} {f : α → Except Fault β} (hr : Defined (x >>= f)) : Defined x := by
  obtain ⟨a, ha, -⟩ := defined_bind.1 hr
  exact ⟨a, ha⟩

/-- The block ends its transfer: it is the last one, and the file renamed passes the check. -/
structure Ends (h : Host) (s : State) (c : Nctx) (n : Packet) : Prop where
  completes : Completes h s.fs.disk (s.part c.wfname) c n
  rename : h.rename = true
  passes : ∃ old, s.fs.disk (s.part c.wfname) = some old ∧ h.hash.Passes (old ++ c.stored h n) c.hashcode

/-- What a block of a transfer needs: room for the paths, a place in the table unless it is the block that is next, and the
record of the callback if it ends the transfer. -/
structure BlockCareful (h : Host) (s : State) (c : Nctx) (n : Packet) : Prop where
  fits : NameFits s.recvdir c.wfname
  place : n.blockseq.toNat = c.nextid ∨ n.blockseq.toNat < c.cap
  record : Ends h s c n → ∃ a, c.fcb = some a ∧ (s.heap a).isSome

/-- A file that is there and can be opened is not cut into blocks of size 0. -/
def Divides (ans : ReadAns) (s : State) (path : Path) : Prop := (s.fs.disk path).isSome → ans ≠ .noOpen → s.blocksz ≠ 0

/-- What a message decoded needs. -/
structure MessageCareful (h : Host) (s : State) (n : Packet) : Prop where
  hello : MsgType.ofCode n.type = some .hello → s.files n.fileid = none → HasRoom s.recvdir s.Free n.name
  block : n.IsBlock → ∀ c, s.files n.fileid = some c → BlockCareful h s c n
  giveme : MsgType.ofCode n.type = some .giveme → ∀ p, s.senderfiles n.fileid = some p → Divides h.size s p

/-- What a message made needs. -/
structure MakerCareful (h : Host) (s : State) (p : Path) (t : Option MsgType) (i : Int) : Prop where
  hello : t = some .hello → Divides h.size s p ∧ ∀ F, Sendable h s p F → p.length + 1 ≤ fullpathSize
  block : t = some .file ∨ t = some .fin → 0 ≤ i → Divides h.readblk s p

/-- **What a call needs in order to return.** -/
def Event.Careful (s : State) : Event → Prop
  | .msg h m => DecodeFits m ∧ ∀ n, parse m = .ok (.ok, n) → MessageCareful h s n
  | .recvStop _ fname => ∀ c, s.files (nftpHash (fileBname fname)) = some c → NameFits s.recvdir c.wfname
  | .maker h fpath t _ i => ∀ p, fpath = some p → MakerCareful h s (fileCut p) t i
  | _ => True

end Nftp
