import Nftp.Hash
import Mathlib.Data.List.DropRight
import Mathlib.Logic.Function.Basic
/-!
# File — `file.c`

The disk is a map from paths to contents, with the changes made to it listed in `ops`.  A path stands for the file it is
the spelling of: that `./f` and `f` are one file is not in the map, nor are links, so what is said of two files asks for
paths that denote two (`FilesApart`) or for names without such components (`PlainName`).  Every call of the C library that
may fail takes its answer from the caller, so that a statement can quantify over failures.  `fileX` is `nftp_file_x`.
-/
namespace Nftp

abbrev Path := Bytes
abbrev Disk := Path → Option Bytes

inductive FileOp
  | write (path : Path) | append (path : Path) | rename (src dst : Path) | remove (path : Path)
  deriving DecidableEq, Repr

structure Fs where
  disk : Disk
  ops : List FileOp

/-- What `fopen`, `fwrite` and `fclose` answer when a file is written: `short n` writes the first `n` bytes only; `lost n`
takes them all into the buffer, of which the first `n` reach the file when it is closed. -/
inductive WriteAns
  | done | noOpen | short (n : Nat) | lost (n : Nat)
  deriving DecidableEq, Repr

/-- What `fopen` and `fread` answer when a file is read. -/
inductive ReadAns
  | done | noOpen | short
  deriving DecidableEq, Repr

/-- What `fopen` and `fgets` answer when a file is read line by line: `fails n` is a read error after `n` lines. -/
inductive GetsAns
  | done | noOpen | fails (n : Nat)
  deriving DecidableEq, Repr

/-- What the C library answers during one API call; `append k` is for the `k`-th append of the call. -/
structure Host where
  write : WriteAns
  append : Nat → WriteAns
  rename : Bool
  remove : Bool
  size : ReadAns
  hash : ReadAns
  readblk : ReadAns

def Host.good : Host :=
  { write := .done, append := fun _ => .done, rename := true, remove := true, size := .done, hash := .done,
    readblk := .done }

/-- The result of `fwrite`, the only one of the three that is looked at once the file is open. -/
def WriteAns.counted (ans : WriteAns) (sz : Nat) : Nat :=
  match ans with
  | .short n => min n sz
  | _ => sz

/-- The bytes that reach the file. -/
def WriteAns.written (ans : WriteAns) (sz : Nat) : Nat :=
  match ans with
  | .short n | .lost n => min n sz
  | _ => sz

/-! ## The operations -/

def fileExist (d : Disk) (fpath : Path) : Bool := (d fpath).isSome

def fileRemove (ok : Bool) (fs : Fs) (fpath : Path) : Rv × Fs :=
  if fileExist fs.disk fpath = false then (.filepath, fs)
  else if ok = false then (.file, fs)
  else (.ok, { disk := Function.update fs.disk fpath none, ops := fs.ops ++ [.remove fpath] })

def fileRename (ok : Bool) (fs : Fs) (sfpath dfpath : Path) : Rv × Fs :=
  match fs.disk sfpath with
  | none => (.filepath, fs)
  | some c =>
    if ok = false then (.sys, fs)
    else (.ok, { disk := Function.update (Function.update fs.disk sfpath none) dfpath (some c)
                 ops := fs.ops ++ [.rename sfpath dfpath] })

def fileSize (ans : ReadAns) (d : Disk) (fpath : Path) : Rv × Nat :=
  match d fpath with
  | none => (.filepath, 0)
  | some c => if ans = .noOpen then (.file, 0) else (.ok, c.length)

def fileBlocks (ans : ReadAns) (d : Disk) (blocksz : UInt32) (fpath : Path) : Except Fault (Rv × Nat) :=
  let (rv, sz) := fileSize ans d fpath
  if rv ≠ .ok then .ok (rv, 0)
  else if blocksz = 0 then .error .divZero
  else .ok (.ok, sz / blocksz.toNat + 1)

/-- `nftp_file_readblk`: the product `n*nftp_get_blocksz()` is taken in 32 bits. -/
def fileReadblk (ans : ReadAns) (d : Disk) (blocksz : UInt32) (fpath : Path) (n : Int) : Except Fault (Rv × Bytes) :=
  match d fpath with
  | none => .ok (.filepath, [])
  | some c =>
    if ans = .noOpen then .ok (.file, [])
    else if blocksz = 0 then .error .divZero
    else
      let off := ((n * blocksz.toNat) % 2 ^ 32).toNat
      if sizeT n > c.length / blocksz.toNat then .ok (.blocks, [])
      else if sizeT n = c.length / blocksz.toNat ∧ c.length < off then .error .underflow
      else
        let blksz := if sizeT n = c.length / blocksz.toNat then c.length - off else blocksz.toNat
        let str := (c.drop off).take blksz
        -- a file has no byte that an `off_t` does not reach
        if (ans = .short ∧ 0 < blksz) ∨ str.length ≠ blksz ∨ 2 ^ 63 ≤ off + blksz then .ok (.filerd, [])
        else .ok (.ok, str)

/-- What `fgets` reads into a buffer of `n + 1` bytes: up to a newline, `n` bytes at most. -/
def fgets : Nat → Bytes → Bytes
  | 0, _ => []
  | _ + 1, [] => []
  | n + 1, b :: rest => if b = 0x0a then [b] else b :: fgets n rest

/-- `strcat` of a string, behind the one the buffer holds. -/
def strcat (buf s : Bytes) : Except Fault Bytes := do
  let pos := (cstr buf).length
  strcpyAt buf.length pos (cstr s)
  return buf.take pos ++ cstr s ++ [0] ++ buf.drop (pos + (cstr s).length + 1)

/-- The loop of `nftp_file_read`, with `rest` unread, on a stream that gives `n` lines more. -/
def readLines (str rest : Bytes) : Nat → Except Fault Bytes
  | 0 => .ok str
  | n + 1 =>
    if rest = [] then .ok str
    else do
      let txt := fgets 999 rest
      let str ← strcat str txt
      readLines str (rest.drop txt.length) n

/-- The lines a stream gives: of a file as it is there are no more than bytes. -/
def GetsAns.lines (ans : GetsAns) (c : Bytes) : Nat :=
  match ans with
  | .fails n => n
  | _ => c.length

/-- `nftp_file_read`: the code, `*strp` and `*sz`; a read error ends the loop as the end of the file does. -/
def fileRead (ans : GetsAns) (d : Disk) (fpath : Path) : Except Fault (Rv × Bytes × Nat) :=
  match d fpath with
  | none => .ok (.filepath, [], 0)
  | some c =>
    if ans = .noOpen then .ok (.file, [], 0)
    else do
      let str ← readLines (List.replicate (c.length + 1) 0) c (ans.lines c)
      return (.ok, str, c.length)

def fileWrite (ans : WriteAns) (fs : Fs) (fpath : Path) (str : Bytes) (sz : Nat) : Rv × Fs :=
  if ans = .noOpen then (.file, fs)
  else
    (if ans.counted sz ≠ sz then .filewr else .ok,
      { disk := Function.update fs.disk fpath (some (str.take (ans.written sz))), ops := fs.ops ++ [.write fpath] })

def fileAppend (ans : WriteAns) (fs : Fs) (fpath : Path) (str : Bytes) (sz : Nat) : Rv × Fs :=
  match fs.disk fpath with
  | none => (.filepath, fs)
  | some c =>
    if ans = .noOpen then (.file, fs)
    else
      (if ans.counted sz ≠ sz then .filewr else .ok,
        { disk := Function.update fs.disk fpath (some (c ++ str.take (ans.written sz))), ops := fs.ops ++ [.append fpath] })

def fileHash (ans : ReadAns) (d : Disk) (fpath : Path) : Rv × UInt32 :=
  match d fpath with
  | none => (.filepath, 0)
  | some c =>
    if ans = .noOpen then (.file, 0)
    else if ans = .short ∧ 0 < c.length then (.filerd, 0)
    else (.ok, nftpHash c)

/-! ## Names -/

def slash : UInt8 := 0x2f

def basename (path : Bytes) : Bytes :=
  if path = [] then [0x2e]
  else
    let path := (path.reverse.dropWhile (· = slash)).reverse
    if path = [] then [slash] else (path.reverse.takeWhile (· ≠ slash)).reverse

def fileBname (fpath : Bytes) : Bytes := basename (cstr fpath)

/-- What `nftp_file_bname` leaves in `fpath`: `basename` cuts trailing slashes in place, unless there is nothing else. -/
def fileCut (fpath : Bytes) : Path :=
  let path := (cstr fpath).rdropWhile (· = slash)
  if path = [] then cstr fpath else path

def dotPart : Bytes := [0x2e, 0x70, 0x61, 0x72, 0x74]

/-- The sizes of `partname`, and of `fullpath` and `fullpath2`. -/
def partnameSize : Nat := nftpFnameLen + 8
def fullpathSize : Nat := nftpFnameLen + nftpFdirLen

/-- `nftp_file_partname`, into a buffer of `partnameSize` bytes. -/
def filePartname (fname : Bytes) : Except Fault Bytes := do
  strcpyAt partnameSize 0 fname
  strcpyAt partnameSize fname.length dotPart
  return fname ++ dotPart

/-- `nftp_file_fullpath`, into a buffer of `fullpathSize` bytes. -/
def fileFullpath (dir : Option Bytes) (fname : Bytes) : Except Fault Bytes :=
  match dir with
  | some dir => do
    strcpyAt fullpathSize 0 dir
    strcpyAt fullpathSize dir.length fname
    return dir ++ fname
  | none => do
    strcpyAt fullpathSize 0 fname
    return fname

/-- `sprintf(newname+len, "_%02d", i)` for `i < 100`. -/
def numbered (fname : Bytes) (i : Nat) : Bytes :=
  fname ++ [0x5f, 0x30 + UInt8.ofNat (i / 10), 0x30 + UInt8.ofNat (i % 10)]

/-- The loop of `nftp_file_newname`, from `i` on, `n` names left to try. -/
def tryNames (d : Disk) (path : Option Bytes) (fname : Bytes) (i : Nat) : Nat → Except Fault (Rv × Option Bytes)
  | 0 => .ok (.filename, none)
  | n + 1 => do
    let fullpath ← fileFullpath path (numbered fname i)
    if fileExist d fullpath = false then .ok (.ok, some (numbered fname i))
    else tryNames d path fname (i + 1) n

/-- `nftp_file_newname`: a NULL name when the 99 names are taken. -/
def fileNewname (d : Disk) (fname : Bytes) (path : Option Bytes) : Except Fault (Rv × Option Bytes) :=
  tryNames d path fname 1 99

end Nftp
