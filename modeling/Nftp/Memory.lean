import Nftp.Hashtable
import Nftp.Invariant
/-!
# Memory — `proto.c` on its hashtables and its heap

The endpoint as `proto.c` keeps it: `files` is a table of pointers to contexts, which are allocated and released, and
`senderfiles` a table of paths.  The calls are those of `Proto`, on these: what they do to the registry, to the disk and
to a context is taken from there.  Reading or releasing a context that is not allocated is a fault of its own.
-/
namespace Nftp

open Function (update)

/-- What stops a call: a fault of the rest of the program, one of a hashtable, or a context that is not allocated. -/
inductive MemFault
  | base (e : Fault)
  | table (e : HtFault)
  | ctx
  deriving DecidableEq, Repr

/-- `rest` holds everything but the two hashtables; its own tables stay empty. -/
structure Machine where
  rest : State
  files : HashTable UInt32 Addr
  senderfiles : HashTable UInt32 Bytes
  ctxs : Addr → Option Nctx
  ctxBrk : Addr

/-- What a call returns: `rv`, `*rmsg`, `*rlen`, and the machine it leaves. -/
structure MachineRet where
  rv : Rv
  rmsg : Option Bytes
  rlen : Int
  st : Machine

/-- A step of the program outside the tables and the contexts. -/
def onBase {α : Type} (x : Except Fault α) : Except MemFault α := x.mapError .base

def onTable {α : Type} (x : Except HtFault α) : Except MemFault α := x.mapError .table

namespace Machine

def ret (m : Machine) (rv : Rv) : Except MemFault MachineRet := .ok ⟨rv, none, 0, m⟩

def withFs (m : Machine) (fs : Fs) : Machine := { m with rest := { m.rest with fs := fs } }

/-! ## Contexts -/

/-- `nctx_alloc`: the address, and the machine with the context there. -/
def ctxAlloc (m : Machine) (ctx : Nctx) : Addr × Machine :=
  (m.ctxBrk, { m with ctxs := update m.ctxs m.ctxBrk (some ctx), ctxBrk := m.ctxBrk + 1 })

/-- Read through a pointer to a context. -/
def ctxAt (m : Machine) (p : Option Addr) : Except MemFault (Addr × Nctx) :=
  match p with
  | none => .error (.base .null)
  | some a =>
    match m.ctxs a with
    | none => .error .ctx
    | some ctx => .ok (a, ctx)

def ctxStore (m : Machine) (a : Addr) (ctx : Nctx) : Machine := { m with ctxs := update m.ctxs a (some ctx) }

/-- `nctx_free`. -/
def ctxFree (m : Machine) (a : Addr) : Except MemFault Machine :=
  match m.ctxs a with
  | none => .error .ctx
  | some _ => .ok { m with ctxs := update m.ctxs a none }

/-! ## Making a message -/

/-- The entry under the key is erased, if there is one. -/
def dropSender (m : Machine) (key : UInt32) : Except MemFault (HashTable UInt32 Bytes) := do
  let found ← onTable (m.senderfiles.contains key)
  if found = htNotFound then return m.senderfiles
  else do
    let (_, senderfiles) ← onTable (m.senderfiles.erase key)
    return senderfiles

def makeHello (h : Host) (m : Machine) (fpath fname : Bytes) (key : Int) : Except MemFault MachineRet :=
  let (rv, len) := fileSize h.size m.rest.fs.disk fpath
  if rv ≠ .ok then m.ret rv
  else if m.rest.blocksz = 0 then .error (.base .divZero)
  else
    let blocks := len / m.rest.blocksz.toNat + 1
    if blocks > nftpBlockNum then m.ret .blocks
    else
      let (rv, hashcode) := fileHash h.hash m.rest.fs.disk fpath
      if rv ≠ .ok then m.ret rv
      else do
        onBase (strcpyAt fullpathSize 0 fpath)
        let senderfiles ← m.dropSender (nftpHash fname)
        let (code, senderfiles) ← onTable (senderfiles.insert (nftpHash fname) fpath)
        let m := { m with senderfiles := senderfiles }
        let p := { Packet.alloc with
          type := MsgType.hello.code, len := UInt32.ofNat (5 + 1 + 2 + 2 + fname.length + 4),
          id := UInt8.ofNat (key % 256).toNat, blocks := UInt16.ofNat blocks, fname := some fname,
          namelen := UInt16.ofNat fname.length, hashcode := hashcode }
        if code ≠ 0 then m.ret .ht
        else do
          let r ← onBase (encodeReply m.rest p)
          return ⟨r.rv, r.rmsg, r.rlen, m⟩

/-- `nftp_proto_maker`: only the HELLO case has to do with a table. -/
def protoMaker (h : Host) (m : Machine) (fpath : Option Bytes) (type : Option MsgType) (key n : Int) :
    Except MemFault MachineRet :=
  match fpath, type with
  | some fpath, some .hello => m.makeHello h (fileCut fpath) (fileBname fpath) key
  | fpath, type => do
    let r ← onBase (Nftp.protoMaker h m.rest fpath type key n)
    return ⟨r.rv, r.rmsg, r.rlen, m⟩

/-! ## Handling a message -/

/-- The end of the HELLO case, for the context at `a`: create its part file, put the pointer into `files`, acknowledge. -/
def accept (h : Host) (m : Machine) (a : Addr) (ctx : Nctx) (n : Packet) : Except MemFault MachineRet := do
  let fullpath ← onBase (partPath m.rest.recvdir ctx.wfname)
  let (rv, fs) := fileWrite h.write m.rest.fs fullpath [] 0
  -- the context is in no table yet, and stays allocated
  if rv ≠ .ok then (m.withFs fs).ret rv
  else do
    let (code, files) ← onTable (m.files.insert ctx.fileid a)
    let m := { m.withFs fs with files := files }
    -- the context whose pointer was written over stays allocated
    if code ≠ 0 then m.ret .ht
    else do
      let r ← onBase (Nftp.protoMaker h m.rest (some (cstr (n.fname.getD []))) (some .ack) n.id.toNat 0)
      return ⟨.ok, r.rmsg, r.rlen, m⟩

def handleHello (h : Host) (m : Machine) (n : Packet) : Except MemFault MachineRet := do
  let fname := cstr (n.fname.getD [])
  let ctx := nctxAlloc n.blocks.toNat (nftpHash fname) n.hashcode
  let (a, m) := m.ctxAlloc ctx
  let found ← onTable (m.files.contains n.fileid)
  if found ≠ htNotFound then do
    let m ← m.ctxFree a
    m.ret .ht
  else do
    let (fcb, rest) ← onBase (bindFcb m.rest fname)
    let wfname ← onBase (pickName rest fname)
    match wfname with
    | none => .error (.base .null)
    | some wfname =>
      let ctx := { ctx with fcb := fcb, wfname := wfname }
      ({ m with rest := rest }.ctxStore a ctx).accept h a ctx n

/-- The end of a transfer that passed its check: run the callback, take the key out of `files`, release the context. -/
def close (m : Machine) (a : Addr) (ctx : Nctx) : Except MemFault MachineRet := do
  let rest ← onBase (runCb m.rest ctx)
  let (code, files) ← onTable (m.files.erase ctx.fileid)
  let m := { m with rest := rest, files := files }
  if code ≠ 0 then .ok ⟨.ht, some ctx.wfname, cInt ctx.wfname.length, m⟩
  else do
    let m ← m.ctxFree a
    return ⟨.ok, some ctx.wfname, cInt ctx.wfname.length, m⟩

/-- The end of a transfer, whose context is at `a`. -/
def finish (h : Host) (m : Machine) (a : Addr) (ctx : Nctx) (fullpath : Path) : Except MemFault MachineRet := do
  let fullpath2 ← onBase (fileFullpath m.rest.recvdir ctx.wfname)
  let (rv, fs) := fileRename h.rename m.rest.fs fullpath fullpath2
  let m := m.withFs fs
  if rv ≠ .ok then m.ret rv
  else
    let (rv, hashcode) := fileHash h.hash fs.disk fullpath2
    if rv ≠ .ok then .ok ⟨rv, some ctx.wfname, cInt ctx.wfname.length, m⟩
    else if ctx.hashcode ≠ hashcode then .ok ⟨.proto, some ctx.wfname, cInt ctx.wfname.length, m⟩
    else m.close a ctx

def handleFile (h : Host) (m : Machine) (n : Packet) : Except MemFault MachineRet := do
  let found ← onTable (m.files.contains n.fileid)
  if found = htNotFound then m.ret .ht
  else do
    let p ← onTable (m.files.lookup n.fileid)
    let (a, ctx) ← m.ctxAt p
    let fullpath ← onBase (partPath m.rest.recvdir ctx.wfname)
    let (rv, ctx, fs) ← onBase (storeBlock h fullpath ctx m.rest.fs n)
    let m := (m.ctxStore a ctx).withFs fs
    if rv ≠ .ok then m.ret rv
    else if ctx.nextid = ctx.cap then m.finish h a ctx fullpath
    else m.ret .ok

def handleGiveme (h : Host) (m : Machine) (n : Packet) : Except MemFault MachineRet := do
  let found ← onTable (m.senderfiles.contains n.fileid)
  if found = htNotFound then m.ret .ht
  else do
    let p ← onTable (m.senderfiles.lookup n.fileid)
    match p with
    | none => .error (.base .null)
    | some fullpath => do
      onBase (strcpyAt fullpathSize 0 fullpath)
      let (rv, blocks) ← onBase (fileBlocks h.size m.rest.fs.disk m.rest.blocksz fullpath)
      if rv ≠ .ok then m.ret rv
      else do
        let t := if n.blockseq.toNat = blocks - 1 then MsgType.fin else MsgType.file
        let r ← onBase (Nftp.protoMaker h m.rest (some fullpath) (some t) n.fileid.toNat n.blockseq.toNat)
        return ⟨.ok, r.rmsg, r.rlen, m⟩

def dispatch (h : Host) (m : Machine) (n : Packet) : Except MemFault MachineRet :=
  match MsgType.ofCode n.type with
  | some .hello => m.handleHello h n
  | some .ack => m.ret .ok
  | some .file => m.handleFile h n
  | some .fin => m.handleFile h n
  | some .giveme => m.handleGiveme h n
  | none => m.ret .ok

def protoHandler (h : Host) (m : Machine) (msg : Bytes) (len : Int) : Except MemFault MachineRet := do
  let (rv, n) ← onBase (decode Packet.alloc msg (sizeT len))
  if rv ≠ .ok then m.ret rv else m.dispatch h n

def receive (h : Host) (m : Machine) (msg : Bytes) : Except MemFault MachineRet := m.protoHandler h msg (cInt msg.length)

/-! ## The other calls of the API -/

def protoRecvStatus (m : Machine) (fname : Bytes) : Except MemFault (Rv × Option Nat × Int) := do
  let fileid := nftpHash (fileBname fname)
  let found ← onTable (m.files.contains fileid)
  if found = htNotFound then return (.ht, none, -1)
  else do
    let p ← onTable (m.files.lookup fileid)
    let (_, ctx) ← m.ctxAt p
    return (.ok, some ctx.cap, ctx.nextid)

def protoRecvStop (h : Host) (m : Machine) (fname : Bytes) : Except MemFault (Rv × Machine) := do
  let fileid := nftpHash (fileBname fname)
  let found ← onTable (m.files.contains fileid)
  if found = htNotFound then return (.ht, m)
  else do
    let p ← onTable (m.files.lookup fileid)
    let (a, ctx) ← m.ctxAt p
    let fullpath ← onBase (partPath m.rest.recvdir ctx.wfname)
    let (code, files) ← onTable (m.files.erase fileid)
    let m := { m with files := files }
    if code ≠ 0 then return (.ht, m)
    else do
      let (rv, fs) := fileRemove h.remove m.rest.fs fullpath
      let m := m.withFs fs
      -- the context is in no table any more, and stays allocated
      if rv ≠ .ok then return (rv, m)
      else do
        let rest ← onBase (dropCb m.rest ctx)
        let m ← { m with rest := rest }.ctxFree a
        return (.ok, m)

/-- A call that has to do with the registry only. -/
def onRest (m : Machine) (x : Except Fault (Rv × State)) : Except MemFault (Rv × Machine) := do
  let (rv, rest) ← onBase x
  return (rv, { m with rest := rest })

/-- The program before `nftp_proto_init`: both tables are static, and no context is allocated. -/
def boot (recvdir : Option Bytes) (blocksz : UInt32) (fs : Fs) : Machine :=
  { rest := State.boot recvdir blocksz fs, files := .initializer, senderfiles := .initializer, ctxs := fun _ => none,
    ctxBrk := 0 }

def protoInit (m : Machine) : Except MemFault (Rv × Machine) := do
  let (rv, rest) ← onBase (Nftp.protoInit m.rest)
  let m := { m with rest := rest }
  if rv ≠ .ok then return (rv, m)
  else return (.ok, { m with files := (HashTable.setup nftpFiles).2, senderfiles := (HashTable.setup nftpFiles).2 })

/-- The loop of `nftp_proto_fini` over the registry, `n` rounds at most: the first record is popped and released. -/
def popRecords (s : State) : Nat → Except Fault State
  | 0 => if s.fcbReg.len = 0 then .ok s else .error .diverge
  | n + 1 =>
    if s.fcbReg.len = 0 then .ok s
    else do
      let (_, fcb, reg) ← vecPop s.fcbReg .head
      let s ← State.freeCb { s with fcbReg := reg } fcb
      popRecords s n

/-- `nftp_proto_fini`; only `nftp_proto_init` may follow. -/
def protoFini (m : Machine) : Except MemFault (Rv × Machine) := do
  let rest ← onBase (popRecords m.rest m.rest.fcbReg.len)
  let entries ← onTable m.files.iterate
  let m ← entries.foldlM (fun m x => m.ctxFree x.2) { m with rest := rest }
  let (_, files) ← onTable m.files.clear
  let (_, files) ← onTable files.destroy
  let _ ← onTable m.senderfiles.iterate
  let (_, senderfiles) ← onTable m.senderfiles.clear
  let (_, senderfiles) ← onTable senderfiles.destroy
  return (.ok, { m with rest := { m.rest with recvdir := none }, files := files, senderfiles := senderfiles })

/-- `nftp_proto_fini` and `nftp_proto_init` again. -/
def restart (m : Machine) : Except MemFault (Rv × Machine) := do
  let (_, m) ← m.protoFini
  m.protoInit

/-- A code alone, as an answer. -/
def coded (x : Except MemFault (Rv × Machine)) : Except MemFault MachineRet := do
  let (rv, m) ← x
  return ⟨rv, none, 0, m⟩

def call (m : Machine) : Event → Except MemFault MachineRet
  | .msg h msg => m.receive h msg
  | .register fname cb arg => coded (m.onRest (protoRegister m.rest fname cb arg))
  | .unregister fname => coded (m.onRest (protoUnregister m.rest fname))
  | .recvStop h fname => coded (m.protoRecvStop h fname)
  | .maker h fpath type key n => m.protoMaker h fpath type key n
  | .setRecvdir dir => .ok ⟨.ok, none, 0, { m with rest := Nftp.setRecvdir m.rest dir }⟩
  | .setBlocksz blksz => .ok ⟨.ok, none, 0, { m with rest := Nftp.setBlocksz m.rest blksz }⟩
  | .disk disk => .ok ⟨.ok, none, 0, m.withFs { m.rest.fs with disk := disk }⟩

end Machine

end Nftp
