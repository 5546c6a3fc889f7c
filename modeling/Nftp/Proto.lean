import Nftp.Codec
import Nftp.Vec
import Nftp.File
/-!
# Proto — `proto.c`

The state of one endpoint and the calls of its API.  A call answers `Ret`: the code returned, the message handed back,
and the state after it.  The hashtables are finite maps; a callback record is an address into `heap`, and reading or
releasing a record that is not there is a fault.

`protoX` is `nftp_proto_x`; `makeX` and `handleX` are the cases of the switches of `nftp_proto_maker` and
`nftp_proto_handler`; `setX` is `nftp_set_x`.
-/
namespace Nftp

abbrev Addr := Nat

/-- `struct file_cb`; a callback is a number, `none` the NULL callback. -/
structure FileCb where
  fname : Bytes
  cb : Option Nat
  arg : Nat
  deriving DecidableEq, Repr

structure Buf where
  body : Option Bytes
  len : Nat
  deriving DecidableEq, Repr

/-- `struct nctx`, less its `status`, which nothing reads. -/
structure Nctx where
  len : Int
  cap : Nat
  nextid : Nat
  entries : List Buf
  fileid : UInt32
  hashcode : UInt32
  fcb : Option Addr
  wfname : Bytes
  deriving DecidableEq, Repr

/-- A callback run, for the transfer of a file id. -/
structure Call where
  fileid : UInt32
  cb : Nat
  arg : Nat
  deriving DecidableEq, Repr

structure State where
  recvdir : Option Bytes
  blocksz : UInt32
  files : UInt32 → Option Nctx
  senderfiles : UInt32 → Option Bytes
  fcbReg : Vec Addr
  heap : Addr → Option FileCb
  brk : Addr
  fs : Fs
  calls : List Call

/-- What a call returns: `rv`, `*rmsg`, `*rlen`, and the state it leaves. -/
structure Ret where
  rv : Rv
  rmsg : Option Bytes
  rlen : Int
  st : State

def State.ret (s : State) (rv : Rv) : Except Fault Ret := .ok ⟨rv, none, 0, s⟩

def star : Bytes := [0x2a]

/-! ## `hashtable.c`, as a finite map -/

/-- `ht_insert`: 1 (`HT_UPDATED`) when the key was there, whose value is overwritten. -/
def htInsert {α : Type} (t : UInt32 → Option α) (key : UInt32) (value : α) : Int × (UInt32 → Option α) :=
  (if (t key).isSome then 1 else 0, Function.update t key (some value))

def htErase {α : Type} (t : UInt32 → Option α) (key : UInt32) : UInt32 → Option α := Function.update t key none

/-! ## The callback registry -/

def State.deref (s : State) (p : Option Addr) : Except Fault (Addr × FileCb) :=
  match p with
  | none => .error .null
  | some a =>
    match s.heap a with
    | none => .error .freed
    | some r => .ok (a, r)

/-- `free(fcb->fname); free(fcb)`. -/
def State.freeCb (s : State) (p : Option Addr) : Except Fault State := do
  let (a, _) ← s.deref p
  return { s with heap := Function.update s.heap a none }

/-- The search of `nftp_proto_register` and `nftp_proto_unregister`: the first index from `i` on, among `n`, whose
record has the name. -/
def findName (s : State) (fname : Bytes) (i : Nat) : Nat → Except Fault (Rv × Option Nat)
  | 0 => .ok (.ok, none)
  | n + 1 => do
    let (rv, fcb) ← vecGet s.fcbReg i
    if rv ≠ .ok then .ok (rv, none)
    else do
      let (_, r) ← s.deref fcb
      if r.fname = fname then .ok (.ok, some i) else findName s fname (i + 1) n

/-- The search of the HELLO case, with an iterator: the last record with the name. -/
def iterName (s : State) (fname : Bytes) (i : Nat) (found : Option Addr) : Nat → Except Fault (Option Addr)
  | 0 => .ok found
  | n + 1 => do
    let (rv, fcb) ← vecGet s.fcbReg i
    if rv ≠ .ok then .ok found
    else do
      let (a, r) ← s.deref fcb
      iterName s fname (i + 1) (if r.fname = fname then some a else found) n

/-- The search of a record by its address (end of a transfer, `nftp_proto_recv_stop`). -/
def findCb (s : State) (fcb : Addr) (i : Nat) : Nat → Except Fault (Option Nat)
  | 0 => .ok none
  | n + 1 => do
    let (rv, p) ← vecGet s.fcbReg i
    if rv = .ok ∧ p = some fcb then .ok (some i) else findCb s fcb (i + 1) n

/-- Allocate a record and push it at the end of the registry; a refused push releases it. -/
def pushCb (s : State) (r : FileCb) : Except Fault (Rv × State) := do
  let (rv, reg) ← vecPush s.fcbReg s.brk .tail
  if rv ≠ .ok then .ok (rv, s)
  else .ok (.ok, { s with fcbReg := reg, heap := Function.update s.heap s.brk (some r), brk := s.brk + 1 })

def protoRegister (s : State) (fname : Option Bytes) (cb : Option Nat) (arg : Nat) : Except Fault (Rv × State) :=
  match fname with
  | none => .ok (.filename, s)
  | some fname => do
    let fname := cstr fname
    if fname = star then
      if s.fcbReg.len = 0 then pushCb s ⟨fname, cb, arg⟩
      else do
        let (rv, fcbn) ← vecGet s.fcbReg 0
        if rv ≠ .ok then .ok (rv, s)
        else do
          let (a, r) ← s.deref fcbn
          if r.fname ≠ fname then .ok (.vec, s)
          else .ok (.ok, { s with heap := Function.update s.heap a (some { r with cb := cb, arg := arg }) })
    else do
      let (rv, dup) ← findName s fname 1 (s.fcbReg.len - 1)
      if rv ≠ .ok then .ok (rv, s)
      else if dup.isSome then .ok (.ht, s)
      else pushCb s ⟨fname, cb, arg⟩

def protoUnregister (s : State) (fname : Option Bytes) : Except Fault (Rv × State) :=
  match fname with
  | none => .ok (.filename, s)
  | some fname => do
    let fname := cstr fname
    if fname = star then .ok (.filename, s)
    else do
      let (rv, found) ← findName s fname 1 (s.fcbReg.len - 1)
      if rv ≠ .ok then .ok (.vec, s)
      else match found with
        | none => .ok (.ht, s)
        | some i => do
          let (_, fcb, reg) ← vecDelete s.fcbReg i
          let s ← State.freeCb { s with fcbReg := reg } fcb
          return (.ok, s)

/-! ## Setting up -/

/-- The program before `nftp_proto_init`, with the directory and block size the user chose. -/
def State.boot (recvdir : Option Bytes) (blocksz : UInt32) (fs : Fs) : State :=
  { recvdir := recvdir, blocksz := blocksz, files := fun _ => none, senderfiles := fun _ => none,
    fcbReg := vecAlloc nftpFiles, heap := fun _ => none, brk := 0, fs := fs, calls := [] }

def protoInit (s : State) : Except Fault (Rv × State) := do
  let s := { s with fcbReg := vecAlloc nftpFiles }
  let (rv, s) ← protoRegister s (some star) none 0
  if rv ≠ .ok then .ok (rv, s)
  else .ok (.ok, { s with files := fun _ => none, senderfiles := fun _ => none })

/-! ## Making a message -/

/-- The end of `nftp_proto_maker`: encode the packet; `*rlen` is an `int`. -/
def encodeReply (s : State) (p : Packet) : Except Fault Ret := do
  let (rv, v, alen) ← encode p
  if rv ≠ .ok then s.ret rv else .ok ⟨.ok, some v, cInt alen, s⟩

/-- The HELLO case of `nftp_proto_maker`, which also records the path in `senderfiles`. -/
def makeHello (h : Host) (s : State) (fpath fname : Bytes) (key : Int) : Except Fault Ret :=
  let (rv, len) := fileSize h.size s.fs.disk fpath
  if rv ≠ .ok then s.ret rv
  else if s.blocksz = 0 then .error .divZero
  else
    let blocks := len / s.blocksz.toNat + 1
    if blocks > nftpBlockNum then s.ret .blocks
    else
      let (rv, hashcode) := fileHash h.hash s.fs.disk fpath
      if rv ≠ .ok then s.ret rv
      else do
        strcpyAt fullpathSize 0 fpath
        -- an entry under the key is erased first, so `ht_insert` finds none
        let (code, senderfiles) := htInsert (htErase s.senderfiles (nftpHash fname)) (nftpHash fname) fpath
        let p := { Packet.alloc with
          type := MsgType.hello.code, len := UInt32.ofNat (5 + 1 + 2 + 2 + fname.length + 4),
          id := UInt8.ofNat (key % 256).toNat, blocks := UInt16.ofNat blocks, fname := some fname,
          namelen := UInt16.ofNat fname.length, hashcode := hashcode }
        if code ≠ 0 then s.ret .ht else encodeReply { s with senderfiles := senderfiles } p

def makeFile (h : Host) (s : State) (fpath fname : Bytes) (t : MsgType) (n : Int) : Except Fault Ret :=
  if 0 > n then s.ret .id
  else do
    let (rv, v) ← fileReadblk h.readblk s.fs.disk s.blocksz fpath n
    let p := { Packet.alloc with
      type := t.code, len := UInt32.ofNat (5 + 4 + 2 + 4 + v.length), fileid := nftpHash fname,
      blockseq := UInt16.ofNat (n % 2 ^ 16).toNat, ctlen := v.length, content := some v }
    if rv ≠ .ok then s.ret rv else encodeReply s p

/-- `nftp_proto_maker`; `none` is a type it does not know. -/
def protoMaker (h : Host) (s : State) (fpath : Option Bytes) (type : Option MsgType) (key n : Int) :
    Except Fault Ret :=
  match fpath with
  | none => s.ret .filepath
  | some fpath =>
    let fname := fileBname fpath
    let fpath := fileCut fpath
    match type with
    | some .hello => makeHello h s fpath fname key
    | some .ack =>
      encodeReply s { Packet.alloc with
        type := MsgType.ack.code, len := 6 + 4, id := UInt8.ofNat (key % 256).toNat, fileid := nftpHash fname }
    | some .file => makeFile h s fpath fname .file n
    | some .fin => makeFile h s fpath fname .fin n
    | some .giveme =>
      if 0 > n then s.ret .id
      else encodeReply s { Packet.alloc with
        type := MsgType.giveme.code, len := 5 + 4 + 2, fileid := nftpHash fname,
        blockseq := UInt16.ofNat (n % 2 ^ 16).toNat }
    | none => encodeReply s Packet.alloc

/-- `strncpy` from a position: up to a NUL, or `n` bytes. -/
def strncpy (v : Bytes) (pos : Nat) : Nat → Except Fault Bytes
  | 0 => .ok []
  | n + 1 => do
    let b ← byteAt v pos
    if b = 0 then .ok (List.replicate (n + 1) 0)
    else do
      let rest ← strncpy v (pos + 1) n
      return b :: rest

/-- `nftp_proto_hello_get_fname`: the code, `*fnamep` and `*lenp`. -/
def protoHelloGetFname (rmsg : Bytes) : Except Fault (Rv × Bytes × Nat) := do
  let b ← byteAt rmsg 0
  if b ≠ MsgType.hello.code then .ok (.type, [], 0)
  else do
    let namelen ← getU16 rmsg 8
    let fname ← strncpy rmsg 10 namelen.toNat
    return (.ok, fname, namelen.toNat)

/-! ## Handling a message: HELLO -/

/-- `nctx_alloc`, with the file id and the hash of the HELLO. -/
def nctxAlloc (sz : Nat) (fileid hashcode : UInt32) : Nctx :=
  { len := 0, cap := sz, nextid := 0, entries := List.replicate sz ⟨none, 0⟩, fileid := fileid, hashcode := hashcode,
    fcb := none, wfname := [] }

/-- The record a HELLO binds: the one named as the file, or the default one, under whose callback the file is then
registered. -/
def bindFcb (s : State) (fname : Bytes) : Except Fault (Option Addr × State) := do
  let found ← iterName s fname 0 none s.fcbReg.len
  match found with
  | some a => .ok (some a, s)
  | none => do
    let (_, fcb) ← vecGet s.fcbReg 0
    let (a, r) ← s.deref fcb
    let (_, s) ← protoRegister s (some fname) r.cb r.arg
    return (some a, s)

/-- The name a HELLO's file is saved under; NULL when no name is free. -/
def pickName (s : State) (fname : Bytes) : Except Fault (Option Bytes) := do
  let fullpath ← fileFullpath s.recvdir fname
  if fileExist s.fs.disk fullpath = true then do
    let (_, wfname) ← fileNewname s.fs.disk fname s.recvdir
    return wfname
  else return some fname

def partPath (recvdir : Option Bytes) (wfname : Bytes) : Except Fault Path := do
  let partname ← filePartname wfname
  fileFullpath recvdir partname

def handleHello (h : Host) (s : State) (n : Packet) : Except Fault Ret :=
  let fname := cstr (n.fname.getD [])
  let ctx := nctxAlloc n.blocks.toNat (nftpHash fname) n.hashcode
  if (s.files n.fileid).isSome then s.ret .ht
  else do
    let (fcb, s) ← bindFcb s fname
    let wfname ← pickName s fname
    match wfname with
    | none => .error .null
    | some wfname => do
      let fullpath ← partPath s.recvdir wfname
      let (rv, fs) := fileWrite h.write s.fs fullpath [] 0
      if rv ≠ .ok then State.ret { s with fs := fs } rv
      else
        let (code, files) := htInsert s.files ctx.fileid { ctx with fcb := fcb, wfname := wfname }
        if code ≠ 0 then State.ret { s with fs := fs, files := files } .ht
        else do
          let r ← protoMaker h { s with fs := fs, files := files } (some fname) (some .ack) n.id.toNat 0
          return { r with rv := .ok }

/-! ## Handling a message: FILE and END -/

/-- The `do … while (1)` loop of the drain: `k` appends were made before, `fuel` rounds are left. -/
def drain (h : Host) (fullpath : Path) (ctx : Nctx) (fs : Fs) (k : Nat) : Nat → Except Fault (Rv × Nctx × Fs)
  | 0 => .error .diverge
  | fuel + 1 =>
    let ctx := { ctx with nextid := ctx.nextid + 1 }
    if (ctx.nextid : Int) > (ctx.cap : Int) - 1 then .ok (.ok, ctx, fs)
    else match ctx.entries[ctx.nextid]? with
      | none => .error .tableIndex
      | some ⟨none, _⟩ => .ok (.ok, ctx, fs)
      | some ⟨some body, len⟩ =>
        let (rv, fs) := fileAppend (h.append k) fs fullpath body len
        if rv ≠ .ok then .ok (rv, ctx, fs)
        else drain h fullpath { ctx with entries := ctx.entries.set ctx.nextid ⟨none, 0⟩ } fs (k + 1) fuel

/-- Append the block that is next and drain the cache, or cache the block. -/
def storeBlock (h : Host) (fullpath : Path) (ctx : Nctx) (fs : Fs) (n : Packet) : Except Fault (Rv × Nctx × Fs) :=
  if n.blockseq.toNat = ctx.nextid then
    let (rv, fs) := fileAppend (h.append 0) fs fullpath (n.content.getD []) n.ctlen
    if rv ≠ .ok then .ok (rv, ctx, fs)
    else do
      -- every round but the last leaves `nextid` below `cap`
      let (rv, ctx, fs) ← drain h fullpath ctx fs 1 (ctx.cap - ctx.nextid + 1)
      if rv ≠ .ok then .ok (rv, ctx, fs) else .ok (.ok, { ctx with len := ctx.len + 1 }, fs)
  else match ctx.entries[n.blockseq.toNat]? with
    | none => .error .tableIndex
    | some e =>
      let len := if e.len ≠ 0 ∧ e.body.isSome then ctx.len - 1 else ctx.len
      .ok (.ok, { ctx with entries := ctx.entries.set n.blockseq.toNat ⟨n.content, n.ctlen⟩, len := len + 1 }, fs)

/-- The call a record's callback makes for a transfer; a NULL callback makes none. -/
def callOf (fileid : UInt32) (r : FileCb) : List Call :=
  match r.cb with
  | some cb => [⟨fileid, cb, r.arg⟩]
  | none => []

/-- Run the callback and release its record, unless it is the default one. -/
def runCb (s : State) (ctx : Nctx) : Except Fault State :=
  match ctx.fcb with
  | none => .ok s
  | some a => do
    let (_, r) ← s.deref (some a)
    let s := { s with calls := s.calls ++ callOf ctx.fileid r }
    let found ← findCb s a 0 s.fcbReg.len
    match found with
    | some 0 => .ok s
    | some i => do
      let (_, _, reg) ← vecDelete s.fcbReg i
      State.freeCb { s with fcbReg := reg } (some a)
    | none => s.freeCb (some a)

/-- `ctx->nextid == ctx->cap`: rename, check the hash, run the callback, drop the context. -/
def finish (h : Host) (s : State) (ctx : Nctx) (fullpath : Path) : Except Fault Ret := do
  let fullpath2 ← fileFullpath s.recvdir ctx.wfname
  let (rv, fs) := fileRename h.rename s.fs fullpath fullpath2
  let s := { s with fs := fs }
  if rv ≠ .ok then s.ret rv
  else
    let (rv, hashcode) := fileHash h.hash s.fs.disk fullpath2
    if rv ≠ .ok then .ok ⟨rv, some ctx.wfname, cInt ctx.wfname.length, s⟩
    else if ctx.hashcode ≠ hashcode then .ok ⟨.proto, some ctx.wfname, cInt ctx.wfname.length, s⟩
    else do
      let s ← runCb s ctx
      return ⟨.ok, some ctx.wfname, cInt ctx.wfname.length, { s with files := htErase s.files ctx.fileid }⟩

def handleFile (h : Host) (s : State) (n : Packet) : Except Fault Ret :=
  match s.files n.fileid with
  | none => s.ret .ht
  | some ctx => do
    let fullpath ← partPath s.recvdir ctx.wfname
    let (rv, ctx, fs) ← storeBlock h fullpath ctx s.fs n
    let s := { s with files := Function.update s.files n.fileid (some ctx), fs := fs }
    if rv ≠ .ok then s.ret rv
    else if ctx.nextid = ctx.cap then finish h s ctx fullpath
    else s.ret .ok

/-! ## Handling a message: GIVEME, and all of them -/

def handleGiveme (h : Host) (s : State) (n : Packet) : Except Fault Ret :=
  match s.senderfiles n.fileid with
  | none => s.ret .ht
  | some fullpath => do
    strcpyAt fullpathSize 0 fullpath
    let (rv, blocks) ← fileBlocks h.size s.fs.disk s.blocksz fullpath
    if rv ≠ .ok then s.ret rv
    else do
      let t := if n.blockseq.toNat = blocks - 1 then MsgType.fin else MsgType.file
      let r ← protoMaker h s (some fullpath) (some t) n.fileid.toNat n.blockseq.toNat
      return { r with rv := .ok }

/-- The switch of `nftp_proto_handler` on the type of the packet decoded. -/
def dispatch (h : Host) (s : State) (n : Packet) : Except Fault Ret :=
  match MsgType.ofCode n.type with
  | some .hello => handleHello h s n
  | some .ack => s.ret .ok
  | some .file => handleFile h s n
  | some .fin => handleFile h s n
  | some .giveme => handleGiveme h s n
  | none => s.ret .ok

/-- `nftp_proto_handler` on a buffer said to hold `len` bytes. -/
def protoHandler (h : Host) (s : State) (msg : Bytes) (len : Int) : Except Fault Ret := do
  let (rv, n) ← decode Packet.alloc msg (sizeT len)
  if rv ≠ .ok then s.ret rv else dispatch h s n

/-- Hand a message to the handler; its length passes through an `int`. -/
def receive (h : Host) (s : State) (msg : Bytes) : Except Fault Ret := protoHandler h s msg (cInt msg.length)

/-! ## The other calls of the API -/

/-- `nftp_proto_recv_status`: the code, `*capp` and `*nextseq`. -/
def protoRecvStatus (s : State) (fname : Bytes) : Rv × Option Nat × Int :=
  match s.files (nftpHash (fileBname fname)) with
  | none => (.ht, none, -1)
  | some ctx => (.ok, some ctx.cap, ctx.nextid)

/-- Release the record of a stopped transfer, unless it is the default one. -/
def dropCb (s : State) (ctx : Nctx) : Except Fault State :=
  match ctx.fcb with
  | none => .ok s
  | some a => do
    let found ← findCb s a 0 s.fcbReg.len
    match found with
    | none => .ok s
    | some 0 => .ok s
    | some i => do
      let (_, fcb, reg) ← vecDelete s.fcbReg i
      State.freeCb { s with fcbReg := reg } fcb

def protoRecvStop (h : Host) (s : State) (fname : Bytes) : Except Fault (Rv × State) :=
  let fileid := nftpHash (fileBname fname)
  match s.files fileid with
  | none => .ok (.ht, s)
  | some ctx => do
    let fullpath ← partPath s.recvdir ctx.wfname
    let s := { s with files := htErase s.files fileid }
    let (rv, fs) := fileRemove h.remove s.fs fullpath
    let s := { s with fs := fs }
    if rv ≠ .ok then .ok (rv, s)
    else do
      let s ← dropCb s ctx
      return (.ok, s)

def setRecvdir (s : State) (dir : Bytes) : State := { s with recvdir := some (cstr dir) }

def setBlocksz (s : State) (blksz : UInt32) : State := { s with blocksz := blksz }

end Nftp
