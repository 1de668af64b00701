import Xv6Threading.Fs.Inode
import Xv6Threading.Lib.Prog
import Xv6Threading.Proc.Table

/-!
# The code of the file system calls (`fs.c:241-360`, `fs.c:518-678`, `sysfile.c`, `file.c`, `pipe.c:22-75`, `exec.c`)

The calls as programs: every access to what processes share is an action, in the source's order, and what the
actions do is said elsewhere, more than once. What one spinlock protects from beginning to end is one action
(`iget`, `filealloc`, the first half of `fileclose`).

| here | there |
| --- | --- |
| `I`, `F` | `struct inode *`, `struct file *`, not null |
| `Act.drop` | `ip->ref--` (`fs.c:350`) |
| `Act.closeRef` | `fileclose` up to `release` (`file.c:60-72`): `*f`, if that was the last reference |
| `Act.pipeInit` | `kalloc` and the fields of the new pipe (`pipe.c:31-38`) |
| `Act.memory` | whether a step of building an address space succeeds (`setupkvm`, `allocuvm`, `copyuvm`, `copyout`) |
| `Content` | what is done to the blocks of one inode or to the log: `iupdate`, `itrunc`, `bmap` and so on |
| `Option (List UInt8)` | a path; `none` if `argstr` refuses the pointer |
| `Ret.gone` | `exit` does not return |

A directory entry is read and written with `readDe` and `writeDe`: the inode is a directory there, so the branch
of `readi` and `writei` for devices is not taken. `devsw` has one entry, the console.
-/

namespace Xv6.Sysfile

open Fs (Name skipelem slash dot dotdot)

abbrev NOFILE : Nat := 16
abbrev NDIRECT : Nat := 12

theorem NDIRECT_succ_ne_zero : NDIRECT + 1 ≠ 0 := by decide

instance (priority := high) : @NeZero Nat Zero.ofOfNat0 (NDIRECT + 1) := ⟨NDIRECT_succ_ne_zero⟩

abbrev ROOTDEV : Nat := 1
abbrev ROOTINO : Nat := 1

abbrev T_DIR : BitVec 16 := 1
abbrev T_FILE : BitVec 16 := 2
abbrev T_DEV : BitVec 16 := 3
abbrev CONSOLE : BitVec 16 := 1

abbrev O_RDONLY : BitVec 32 := 0x000
abbrev O_WRONLY : BitVec 32 := 0x001
abbrev O_RDWR : BitVec 32 := 0x002
abbrev O_CREATE : BitVec 32 := 0x200

abbrev Fd := Fin NOFILE
abbrev Path := List UInt8

/-- `struct dinode`, and the copy of it in `struct inode`. -/
structure Dinode where
  type : BitVec 16
  major : BitVec 16
  minor : BitVec 16
  nlink : BitVec 16
  size : BitVec 32
  addrs : Fin (NDIRECT + 1) → BitVec 32

structure Dirent where
  inum : BitVec 16
  name : Name
deriving DecidableEq

inductive Ftype (I : Type) where
  | none
  | pipe (k : Nat)
  | inode (ip : I)
deriving DecidableEq

structure File (I : Type) where
  type : Ftype I
  readable : Bool
  writable : Bool
  off : BitVec 32
deriving DecidableEq

inductive Panic where
  | ilock
  | ilockNoType
  | iunlock
  | dirlookupNotDir
  | dirlookupRead
  | dirlinkRead
  | dirlink
  | isdirempty
  | unlinkNlink
  | unlinkWritei
  | createDots
  | createDirlink
  | fileread
  | filewrite
  | shortFilewrite
  | loaduvm
  | initExiting
  | nullCwd
  | iallocNoInodes
  | ballocOutOfBlocks
  | freeingFreeBlock
  | bmapOutOfRange
  | tooBigATransaction
  | logWriteOutsideOfTrans
deriving DecidableEq

inductive Content (I : Type) where
  | load (ip : I)
  | iupdate (ip : I)
  | itrunc (ip : I)
  | ialloc (dev : Nat) (type : BitVec 16)
  | readBytes (ip : I) (off n : BitVec 32)
  | writeBytes (ip : I) (off : BitVec 32) (src : List UInt8)
  | readDe (dp : I) (off : BitVec 32)
  | writeDe (dp : I) (off : BitVec 32) (de : Dirent)
  | commit (blocks : List Nat)

/-- What is read is `none` for -1 (for entries: for anything but a whole entry); what is written is whether all of it
was. `ialloc` answers the number of the inode. -/
@[reducible] def Content.Resp {I : Type} : Content I → Type
  | .load _ | .iupdate _ | .itrunc _ | .commit _ => Unit
  | .ialloc .. => Nat
  | .readBytes .. => Option (List UInt8)
  | .writeBytes .. => Option Nat
  | .readDe .. => Option Dirent
  | .writeDe .. => Bool

inductive Act (I F : Type) where
  | beginOp
  | endOp
  | iget (dev inum : Nat)
  | idup (ip : I)
  | drop (ip : I)
  | ref (ip : I)
  | dev (ip : I)
  | inum (ip : I)
  | acquiresleep (ip : I)
  | releasesleep (ip : I)
  | holdingsleep (ip : I)
  | valid (ip : I)
  | setValid (ip : I) (v : Bool)
  | fields (ip : I)
  | assign (ip : I) (d : Dinode)
  | devread (n : BitVec 32)
  | devwrite (src : List UInt8)
  | cwd
  | setCwd (ip : Option I)
  | ofile (fd : Fd)
  | setOfile (fd : Fd) (f : Option F)
  | filealloc
  | filedup (f : F)
  | closeRef (f : F)
  | file (f : F)
  | setFile (f : F) (x : File I)
  | setOff (f : F) (off : BitVec 32)
  | pipeInit
  | pipeclose (k : Nat) (writable : Bool)
  | piperead (k : Nat) (n : BitVec 32)
  | pipewrite (k : Nat) (src : List UInt8)
  | allocproc
  | freeproc (np : Slot)
  | setChildFile (np : Slot) (fd : Fd) (f : F)
  | setChildCwd (np : Slot) (ip : I)
  | startproc (np : Slot)
  | memory
  | isInitproc
  | panic (e : Panic)

/-- `endOp` answers the blocks to commit if it was the last operation, `startproc` the child's pid. -/
@[reducible] def Act.Resp {I F : Type} : Act I F → Type
  | .endOp => Option (List Nat)
  | .iget .. => I
  | .ref _ | .dev _ | .inum _ => Nat
  | .holdingsleep _ | .valid _ | .memory | .isInitproc => Bool
  | .fields _ => Dinode
  | .devread _ | .piperead .. => Option (List UInt8)
  | .devwrite _ | .pipewrite .. => Option Nat
  | .cwd => Option I
  | .ofile _ | .filealloc => Option F
  | .closeRef _ => Option (File I)
  | .file _ => File I
  | .pipeInit => Option Nat
  | .allocproc => Option Slot
  | .startproc _ => Nat
  | .panic _ => Empty
  | _ => Unit

/-- The answers when `C` are the actions on contents. -/
@[reducible] def Resp {I F C : Type} (RC : C → Type) : Act I F ⊕ C → Type
  | .inl a => a.Resp
  | .inr c => RC c

abbrev Kern (I F C : Type) (RC : C → Type) := Prog (Act I F ⊕ C) (Resp RC)

abbrev Sys (I F : Type) := Kern I F (Content I) Content.Resp

section

variable {I F C : Type} {RC : C → Type} {α : Type}

/-! The actions by name. -/

abbrev act (a : Act I F) : Kern I F C RC a.Resp := Prog.ask (Sum.inl a)

abbrev beginOp : Kern I F C RC Unit := act Act.beginOp
abbrev iget (dev inum : Nat) : Kern I F C RC I := act (Act.iget dev inum)
abbrev idup (ip : I) : Kern I F C RC Unit := act (Act.idup ip)
abbrev drop (ip : I) : Kern I F C RC Unit := act (Act.drop ip)
abbrev ref (ip : I) : Kern I F C RC Nat := act (Act.ref ip)
abbrev dev (ip : I) : Kern I F C RC Nat := act (Act.dev ip)
abbrev inum (ip : I) : Kern I F C RC Nat := act (Act.inum ip)
abbrev acquiresleep (ip : I) : Kern I F C RC Unit := act (Act.acquiresleep ip)
abbrev releasesleep (ip : I) : Kern I F C RC Unit := act (Act.releasesleep ip)
abbrev holdingsleep (ip : I) : Kern I F C RC Bool := act (Act.holdingsleep ip)
abbrev valid (ip : I) : Kern I F C RC Bool := act (Act.valid ip)
abbrev setValid (ip : I) (v : Bool) : Kern I F C RC Unit := act (Act.setValid ip v)
abbrev fields (ip : I) : Kern I F C RC Dinode := act (Act.fields ip)
abbrev assign (ip : I) (d : Dinode) : Kern I F C RC Unit := act (Act.assign ip d)
abbrev devread (n : BitVec 32) : Kern I F C RC (Option (List UInt8)) := act (Act.devread n)
abbrev devwrite (src : List UInt8) : Kern I F C RC (Option Nat) := act (Act.devwrite src)
abbrev cwd : Kern I F C RC (Option I) := act Act.cwd
abbrev setCwd (ip : Option I) : Kern I F C RC Unit := act (Act.setCwd ip)
abbrev ofile (fd : Fd) : Kern I F C RC (Option F) := act (Act.ofile fd)
abbrev setOfile (fd : Fd) (f : Option F) : Kern I F C RC Unit := act (Act.setOfile fd f)
abbrev filealloc : Kern I F C RC (Option F) := act Act.filealloc
abbrev filedup (f : F) : Kern I F C RC Unit := act (Act.filedup f)
abbrev closeRef (f : F) : Kern I F C RC (Option (File I)) := act (Act.closeRef f)
abbrev file (f : F) : Kern I F C RC (File I) := act (Act.file f)
abbrev setFile (f : F) (x : File I) : Kern I F C RC Unit := act (Act.setFile f x)
abbrev setOff (f : F) (off : BitVec 32) : Kern I F C RC Unit := act (Act.setOff f off)
abbrev pipeInit : Kern I F C RC (Option Nat) := act Act.pipeInit
abbrev pipeclose (k : Nat) (writable : Bool) : Kern I F C RC Unit := act (Act.pipeclose k writable)
abbrev piperead (k : Nat) (n : BitVec 32) : Kern I F C RC (Option (List UInt8)) := act (Act.piperead k n)
abbrev pipewrite (k : Nat) (src : List UInt8) : Kern I F C RC (Option Nat) := act (Act.pipewrite k src)
abbrev allocproc : Kern I F C RC (Option Slot) := act Act.allocproc
abbrev freeproc (np : Slot) : Kern I F C RC Unit := act (Act.freeproc np)
abbrev setChildFile (np : Slot) (fd : Fd) (f : F) : Kern I F C RC Unit := act (Act.setChildFile np fd f)
abbrev setChildCwd (np : Slot) (ip : I) : Kern I F C RC Unit := act (Act.setChildCwd np ip)
abbrev startproc (np : Slot) : Kern I F C RC Nat := act (Act.startproc np)
abbrev memory : Kern I F C RC Bool := act Act.memory
abbrev isInitproc : Kern I F C RC Bool := act Act.isInitproc

def panic (e : Panic) : Kern I F C RC α := .act (.inl (.panic e)) Empty.elim

abbrev content (c : Content I) : Sys I F c.Resp := Prog.ask (Sum.inr c)

/-! ## Inodes -/

def endOp : Sys I F Unit := do
  match ← act Act.endOp with
  | none => return
  | some blocks => content (.commit blocks)

def ilock (ip : I) : Sys I F Unit := do
  if (← ref ip) < 1 then panic .ilock
  else
    acquiresleep ip
    if ← valid ip then return
    else
      content (.load ip)
      setValid ip true
      if (← fields ip).type = 0 then panic .ilockNoType else return

def iunlock (ip : I) : Sys I F Unit := do
  if ← holdingsleep ip then
    if (← ref ip) < 1 then panic .iunlock else releasesleep ip
  else panic .iunlock

/-- The last reference to an inode without links: its blocks and the inode are freed. -/
def ifree (ip : I) : Sys I F Unit := do
  content (.itrunc ip)
  assign ip { ← fields ip with type := 0 }
  content (.iupdate ip)
  setValid ip false

def iput (ip : I) : Sys I F Unit := do
  acquiresleep ip
  if ← valid ip then
    if (← fields ip).nlink = 0 then
      if (← ref ip) = 1 then ifree ip
  releasesleep ip
  drop ip

def iunlockput (ip : I) : Sys I F Unit := do
  iunlock ip
  iput ip

def ialloc (dev : Nat) (type : BitVec 16) : Sys I F I := do
  iget dev (← content (.ialloc dev type))

/-- `ip->nlink += k; iupdate(ip)`. -/
def addLink (ip : I) (k : BitVec 16) : Sys I F Unit := do
  let d ← fields ip
  assign ip { d with nlink := d.nlink + k }
  content (.iupdate ip)

def consoleread (ip : I) (n : BitVec 32) : Sys I F (Option (List UInt8)) := do
  iunlock ip
  let r ← devread n
  ilock ip
  return r

def consolewrite (ip : I) (src : List UInt8) : Sys I F (Option Nat) := do
  iunlock ip
  let r ← devwrite src
  ilock ip
  return r

def readi (ip : I) (off n : BitVec 32) : Sys I F (Option (List UInt8)) := do
  let d ← fields ip
  if d.type = T_DEV then
    if d.major = CONSOLE then consoleread ip n else return none
  else content (.readBytes ip off n)

def writei (ip : I) (off : BitVec 32) (src : List UInt8) : Sys I F (Option Nat) := do
  let d ← fields ip
  if d.type = T_DEV then
    if d.major = CONSOLE then consolewrite ip src else return none
  else content (.writeBytes ip off src)

/-! ## Directories -/

/-- How many entries a loop over a directory of this size looks at. -/
def entries (size : BitVec 32) : Nat := (size.toNat + 15) / 16

/-- `n` entries are left, from `off` on. -/
def dirlookupLoop (dp : I) (name : Name) : Nat → BitVec 32 → Sys I F (Option (I × BitVec 32))
  | 0, _ => return none
  | n + 1, off => do
    match ← content (.readDe dp off) with
    | none => panic .dirlookupRead
    | some de =>
      if de.inum ≠ 0 ∧ de.name = name then
        let ip ← iget (← dev dp) de.inum.toNat
        return some (ip, off)
      else dirlookupLoop dp name n (off + 16)

def dirlookup (dp : I) (name : Name) : Sys I F (Option (I × BitVec 32)) := do
  let d ← fields dp
  if d.type ≠ T_DIR then panic .dirlookupNotDir else dirlookupLoop dp name (entries d.size) 0

/-- The offset of the first free entry, or of the end. -/
def emptyDe (dp : I) : Nat → BitVec 32 → Sys I F (BitVec 32)
  | 0, off => return off
  | n + 1, off => do
    match ← content (.readDe dp off) with
    | none => panic .dirlinkRead
    | some de => if de.inum = 0 then return off else emptyDe dp n (off + 16)

/-- Whether the name was free. -/
def dirlink (dp : I) (name : Name) (inum : Nat) : Sys I F Bool := do
  match ← dirlookup dp name with
  | some (ip, _) =>
    iput ip
    return false
  | none =>
    let off ← emptyDe dp (entries (← fields dp).size) 0
    if ← content (.writeDe dp off ⟨BitVec.ofNat 16 inum, name⟩) then return true else panic .dirlink

/-- The loop of `namex`. Every turn takes an element off the path, so the length of the path is fuel enough. -/
def namexLoop (parent : Bool) : Nat → I → Path → Name → Sys I F (Option (I × Name))
  | 0, ip, _, name => return some (ip, name)
  | fuel + 1, ip, path, name =>
    match skipelem path with
    | none =>
      if parent then do
        iput ip
        return none
      else return some (ip, name)
    | some (name, path) => do
      ilock ip
      if (← fields ip).type ≠ T_DIR then
        iunlockput ip
        return none
      else if parent ∧ path = [] then
        iunlock ip
        return some (ip, name)
      else
        match ← dirlookup ip name with
        | none =>
          iunlockput ip
          return none
        | some (next, _) =>
          iunlockput ip
          namexLoop parent fuel next path name

/-- `myproc()->cwd`, which is used without a test. -/
def mycwd : Sys I F I := do
  match ← cwd with
  | some ip => return ip
  | none => panic .nullCwd

def namexStart (path : Path) : Sys I F I := do
  if path.head? = some slash then iget ROOTDEV ROOTINO
  else
    let ip ← mycwd
    idup ip
    return ip

def namex (path : Path) (parent : Bool) : Sys I F (Option (I × Name)) := do
  let ip ← namexStart path
  namexLoop parent (path.length + 1) ip path []

def namei (path : Path) : Sys I F (Option I) := do
  return (← namex path false).map (·.1)

def nameiparent (path : Path) : Sys I F (Option (I × Name)) := namex path true

/-! ## Files -/

def fdallocLoop (f : F) : List Fd → Sys I F (Option Fd)
  | [] => return none
  | fd :: fds => do
    match ← ofile fd with
    | none =>
      setOfile fd (some f)
      return some fd
    | some _ => fdallocLoop f fds

def fdalloc (f : F) : Sys I F (Option Fd) := fdallocLoop f (List.finRange NOFILE)

/-- `none` if it is not a descriptor, or not an open one. -/
def argfd (n : Int) : Sys I F (Option (Fd × F)) := do
  if h : 0 ≤ n ∧ n.toNat < NOFILE then
    return (← ofile ⟨n.toNat, h.2⟩).map (⟨n.toNat, h.2⟩, ·)
  else return none

def fileclose (f : F) : Sys I F Unit := do
  match ← closeRef f with
  | none => return
  | some ff =>
    match ff.type with
    | .none => return
    | .pipe k => pipeclose k ff.writable
    | .inode ip =>
      beginOp
      iput ip
      endOp

def fileread (f : F) (n : BitVec 32) : Sys I F (Option (List UInt8)) := do
  let x ← file f
  if x.readable then
    match x.type with
    | .none => panic .fileread
    | .pipe k => piperead k n
    | .inode ip =>
      ilock ip
      let off := (← file f).off
      let r ← readi ip off n
      setOff f (off + BitVec.ofNat 32 (r.elim 0 List.length))
      iunlock ip
      return r
  else return none

/-- `((MAXOPBLOCKS-1-1-2) / 2) * 512`. -/
abbrev maxWrite : Nat := (10 - 1 - 1 - 2) / 2 * 512

/-- One turn of the loop of `filewrite`. -/
def writeChunk (f : F) (ip : I) (src : List UInt8) : Sys I F (Option Nat) := do
  beginOp
  ilock ip
  let off := (← file f).off
  let r ← writei ip off src
  setOff f (off + BitVec.ofNat 32 (r.getD 0))
  iunlock ip
  endOp
  return r

/-- The bytes that are left are more than none on every turn, so their number is fuel enough. -/
def filewriteLoop (f : F) (ip : I) : Nat → List UInt8 → Sys I F Bool
  | 0, src => return src.isEmpty
  | fuel + 1, src =>
    if src.isEmpty then return true
    else do
      match ← writeChunk f ip (src.take maxWrite) with
      | none => return false
      | some r =>
        if r ≠ (src.take maxWrite).length then panic .shortFilewrite
        else filewriteLoop f ip fuel (src.drop r)

/-- How many bytes were written, or `none`. -/
def filewrite (f : F) (src : List UInt8) : Sys I F (Option Nat) := do
  let x ← file f
  if x.writable then
    match x.type with
    | .none => panic .filewrite
    | .pipe k => pipewrite k src
    | .inode ip => if ← filewriteLoop f ip src.length src then return some src.length else return none
  else return none

/-- The type, links and size of the inode, and where it is. -/
def filestat (f : F) : Sys I F (Option (Dinode × Nat × Nat)) := do
  match (← file f).type with
  | .inode ip =>
    ilock ip
    let st := (← fields ip, ← dev ip, ← inum ip)
    iunlock ip
    return some st
  | _ => return none

def closeIf : Option F → Sys I F Unit
  | none => return
  | some f => fileclose f

def pipealloc : Sys I F (Option (F × F)) := do
  match ← filealloc with
  | none => return none
  | some f0 =>
    match ← filealloc with
    | none =>
      fileclose f0
      return none
    | some f1 =>
      match ← pipeInit with
      | none =>
        fileclose f0
        fileclose f1
        return none
      | some k =>
        setFile f0 ⟨.pipe k, true, false, 0⟩
        setFile f1 ⟨.pipe k, false, true, 0⟩
        return some (f0, f1)

/-! ## System calls -/

inductive Ret where
  | val (n : Int)
  | gone
deriving DecidableEq

/-- What the caller is told of a count. -/
def Ret.count (r : Option Nat) : Ret := .val (r.elim (-1) fun n => n)

def fail : Sys I F Ret := return .val (-1)

def sysDup (n : Int) : Sys I F Ret := do
  match ← argfd n with
  | none => fail
  | some (_, f) =>
    match ← fdalloc f with
    | none => fail
    | some fd =>
      filedup f
      return .val fd

/-- `none` if `argint` or `argptr` refuses the rest. -/
def sysRead (n : Int) (len : Option (BitVec 32)) : Sys I F Ret := do
  match ← argfd n, len with
  | some (_, f), some len => return .count ((← fileread f len).map List.length)
  | _, _ => fail

def sysWrite (n : Int) (src : Option (List UInt8)) : Sys I F Ret := do
  match ← argfd n, src with
  | some (_, f), some src => return .count (← filewrite f src)
  | _, _ => fail

def sysClose (n : Int) : Sys I F Ret := do
  match ← argfd n with
  | none => fail
  | some (fd, f) =>
    setOfile fd none
    fileclose f
    return .val 0

def sysFstat (n : Int) (st : Bool) : Sys I F Ret := do
  match ← argfd n with
  | none => fail
  | some (_, f) =>
    if st then return .val (if (← filestat f).isSome then 0 else -1) else fail

/-- The label `bad` of `sys_link`. -/
def linkBad (ip : I) : Sys I F Ret := do
  ilock ip
  addLink ip (-1)
  iunlockput ip
  endOp
  fail

/-- `dp->dev != ip->dev || dirlink(dp, name, ip->inum) < 0`, the other way round. -/
def linkAt (dp ip : I) (name : Name) : Sys I F Bool := do
  if (← dev dp) ≠ (← dev ip) then return false
  else dirlink dp name (← inum ip)

def sysLink (old new : Option Path) : Sys I F Ret := do
  match old, new with
  | some old, some new =>
    beginOp
    match ← namei old with
    | none =>
      endOp
      fail
    | some ip =>
      ilock ip
      if (← fields ip).type = T_DIR then
        iunlockput ip
        endOp
        fail
      else
        addLink ip 1
        iunlock ip
        match ← nameiparent new with
        | none => linkBad ip
        | some (dp, name) =>
          ilock dp
          if ← linkAt dp ip name then
            iunlockput dp
            iput ip
            endOp
            return .val 0
          else
            iunlockput dp
            linkBad ip
  | _, _ => fail

def isdiremptyLoop (dp : I) : Nat → BitVec 32 → Sys I F Bool
  | 0, _ => return true
  | n + 1, off => do
    match ← content (.readDe dp off) with
    | none => panic .isdirempty
    | some de => if de.inum ≠ 0 then return false else isdiremptyLoop dp n (off + 16)

def isdirempty (dp : I) : Sys I F Bool := do
  isdiremptyLoop dp (entries (← fields dp).size - 2) 32

/-- `ip->type == T_DIR && !isdirempty(ip)`. -/
def fullDir (ip : I) : Sys I F Bool := do
  if (← fields ip).type = T_DIR then return !(← isdirempty ip) else return false

/-- The label `bad` of `sys_unlink`. -/
def unlinkBad (dp : I) : Sys I F Ret := do
  iunlockput dp
  endOp
  fail

/-- `sys_unlink` with the entry found. -/
def unlinkAt (dp ip : I) (off : BitVec 32) : Sys I F Ret := do
  ilock ip
  if (← fields ip).nlink.toInt < 1 then panic .unlinkNlink
  else if ← fullDir ip then
    iunlockput ip
    unlinkBad dp
  else if ← content (.writeDe dp off ⟨0, []⟩) then
    if (← fields ip).type = T_DIR then addLink dp (-1)
    iunlockput dp
    addLink ip (-1)
    iunlockput ip
    endOp
    return .val 0
  else panic .unlinkWritei

def sysUnlink (path : Option Path) : Sys I F Ret := do
  match path with
  | none => fail
  | some path =>
    beginOp
    match ← nameiparent path with
    | none =>
      endOp
      fail
    | some (dp, name) =>
      ilock dp
      if name = dot ∨ name = dotdot then unlinkBad dp
      else
        match ← dirlookup dp name with
        | none => unlinkBad dp
        | some (ip, off) => unlinkAt dp ip off

/-- The fields of the new inode, and the entries of a new directory. -/
def fillNew (dp ip : I) (type major minor : BitVec 16) : Sys I F Unit := do
  ilock ip
  assign ip { ← fields ip with major := major, minor := minor, nlink := 1 }
  content (.iupdate ip)
  if type = T_DIR then
    addLink dp 1
    if ← dirlink ip dot (← inum ip) then
      if ← dirlink ip dotdot (← inum dp) then return else panic .createDots
    else panic .createDots

def createNew (dp : I) (name : Name) (type major minor : BitVec 16) : Sys I F I := do
  let ip ← ialloc (← dev dp) type
  fillNew dp ip type major minor
  if ← dirlink dp name (← inum ip) then
    iunlockput dp
    return ip
  else panic .createDirlink

/-- The inode is returned locked. -/
def create (path : Path) (type major minor : BitVec 16) : Sys I F (Option I) := do
  match ← nameiparent path with
  | none => return none
  | some (dp, name) =>
    ilock dp
    match ← dirlookup dp name with
    | some (ip, _) =>
      iunlockput dp
      ilock ip
      if type = T_FILE ∧ (← fields ip).type = T_FILE then return some ip
      else
        iunlockput ip
        return none
    | none => return some (← createNew dp name type major minor)

/-- The inode `open` is about, locked. -/
def openInode (path : Path) (omode : BitVec 32) : Sys I F (Option I) := do
  if omode &&& O_CREATE ≠ 0 then create path T_FILE 0 0
  else
    match ← namei path with
    | none => return none
    | some ip =>
      ilock ip
      if (← fields ip).type = T_DIR ∧ omode ≠ O_RDONLY then
        iunlockput ip
        return none
      else return some ip

def openFile (omode : BitVec 32) (ip : I) : File I :=
  ⟨.inode ip, omode &&& O_WRONLY = 0, omode &&& O_WRONLY ≠ 0 ∨ omode &&& O_RDWR ≠ 0, 0⟩

/-- No file or no descriptor is free. -/
def openBad (f : Option F) (ip : I) : Sys I F Ret := do
  closeIf f
  iunlockput ip
  endOp
  fail

def sysOpen (path : Option Path) (omode : Option (BitVec 32)) : Sys I F Ret := do
  match path, omode with
  | some path, some omode =>
    beginOp
    match ← openInode path omode with
    | none =>
      endOp
      fail
    | some ip =>
      match ← filealloc with
      | none => openBad none ip
      | some f =>
        match ← fdalloc f with
        | none => openBad (some f) ip
        | some fd =>
          iunlock ip
          endOp
          setFile f (openFile omode ip)
          return .val fd
  | _, _ => fail

/-- `sys_mkdir` and `sys_mknod` from `begin_op` on. -/
def make (path : Option Path) (type : BitVec 16) (numbers : Option (BitVec 16 × BitVec 16)) : Sys I F Ret := do
  beginOp
  match path, numbers with
  | some path, some (major, minor) =>
    match ← create path type major minor with
    | none =>
      endOp
      fail
    | some ip =>
      iunlockput ip
      endOp
      return .val 0
  | _, _ =>
    endOp
    fail

def sysMkdir (path : Option Path) : Sys I F Ret := make path T_DIR (some (0, 0))

def sysMknod (path : Option Path) (numbers : Option (BitVec 16 × BitVec 16)) : Sys I F Ret :=
  make path T_DEV numbers

def sysChdir (path : Option Path) : Sys I F Ret := do
  beginOp
  match path with
  | none =>
    endOp
    fail
  | some path =>
    match ← namei path with
    | none =>
      endOp
      fail
    | some ip =>
      ilock ip
      if (← fields ip).type ≠ T_DIR then
        iunlockput ip
        endOp
        fail
      else
        iunlock ip
        iput (← mycwd)
        endOp
        setCwd (some ip)
        return .val 0

/-- `ptr` is whether `argptr` accepts the array. -/
def sysPipe (ptr : Bool) : Sys I F Ret := do
  if ptr then
    match ← pipealloc with
    | none => fail
    | some (rf, wf) =>
      match ← fdalloc rf with
      | none =>
        fileclose rf
        fileclose wf
        fail
      | some fd0 =>
        match ← fdalloc wf with
        | none =>
          setOfile fd0 none
          fileclose rf
          fileclose wf
          fail
        | some _ => return .val 0
  else fail

/-! ## Programs -/

abbrev PGSIZE : Nat := 4096
abbrev ELF_MAGIC : Nat := 0x464C457F
abbrev ELF_PROG_LOAD : Nat := 1
abbrev MAXARG : Nat := 32

/-- `k` bytes from `off` on, the lowest first. -/
def field (b : List UInt8) (off k : Nat) : Nat := ((b.drop off).take k).foldr (fun x n => x.toNat + 256 * n) 0

/-- `loaduvm` from the offset `i` on, `n` pages left. -/
def loaduvm (ip : I) (offset sz : Nat) : Nat → Nat → Sys I F Bool
  | 0, _ => return true
  | n + 1, i => do
    if ← memory then
      let k := min (sz - i) PGSIZE
      match ← readi ip (BitVec.ofNat 32 (offset + i)) (BitVec.ofNat 32 k) with
      | none => return false
      | some b => if b.length ≠ k then return false else loaduvm ip offset sz n (i + PGSIZE)
    else panic .loaduvm

/-- One program header: whether the loop goes on. -/
def loadSegment (ip : I) (off : Nat) : Sys I F Bool := do
  match ← readi ip (BitVec.ofNat 32 off) 32 with
  | none => return false
  | some ph =>
    if ph.length ≠ 32 then return false
    else if field ph 0 4 ≠ ELF_PROG_LOAD then return true
    else if field ph 20 4 < field ph 16 4 then return false
    else if (field ph 8 4 + field ph 20 4) % 2 ^ 32 < field ph 8 4 then return false
    else if ← memory then
      if field ph 8 4 % PGSIZE ≠ 0 then return false
      else loaduvm ip (field ph 4 4) (field ph 16 4) ((field ph 16 4 + PGSIZE - 1) / PGSIZE) 0
    else return false

/-- `n` headers are left. -/
def loadSegments (ip : I) : Nat → Nat → Sys I F Bool
  | 0, _ => return true
  | n + 1, off => do
    if ← loadSegment ip off then loadSegments ip n (off + 32) else return false

def loadProgram (ip : I) : Sys I F Bool := do
  match ← readi ip 0 52 with
  | none => return false
  | some elf =>
    if elf.length ≠ 52 then return false
    else if field elf 0 4 ≠ ELF_MAGIC then return false
    else if ← memory then loadSegments ip (field elf 44 2) (field elf 28 4) else return false

/-- `n` arguments are left to push, `argc` are pushed. -/
def pushArgs : Nat → Nat → Sys I F Bool
  | 0, _ => return true
  | n + 1, argc => do
    if MAXARG ≤ argc then return false
    else if ← memory then pushArgs n (argc + 1) else return false

def exec (path : Path) (argc : Nat) : Sys I F Ret := do
  beginOp
  match ← namei path with
  | none =>
    endOp
    fail
  | some ip =>
    ilock ip
    if ← loadProgram ip then
      iunlockput ip
      endOp
      if ← memory then
        if ← pushArgs argc 0 then
          if ← memory then return .val 0 else fail
        else fail
      else fail
    else
      iunlockput ip
      endOp
      fail

/-- `none` if an argument is refused. -/
def sysExec (path : Option Path) (argc : Option Nat) : Sys I F Ret := do
  match path, argc with
  | some path, some argc => exec path argc
  | _, _ => fail

/-! ## Processes -/

/-- The loop of `fork` and `clone` over the descriptors. -/
def copyFiles (np : Slot) : List Fd → Sys I F Unit
  | [] => return
  | fd :: fds => do
    match ← ofile fd with
    | none => copyFiles np fds
    | some f =>
      filedup f
      setChildFile np fd f
      copyFiles np fds

/-- `fork` and `clone` from the descriptors on. -/
def startChild (np : Slot) : Sys I F Ret := do
  copyFiles np (List.finRange NOFILE)
  let ip ← mycwd
  idup ip
  setChildCwd np ip
  return .val (← startproc np)

def fork : Sys I F Ret := do
  match ← allocproc with
  | none => fail
  | some np =>
    if ← memory then startChild np
    else
      freeproc np
      fail

/-- The loop of `exit` over the descriptors. -/
def closeFiles : List Fd → Sys I F Unit
  | [] => return
  | fd :: fds => do
    match ← ofile fd with
    | none => closeFiles fds
    | some f =>
      fileclose f
      setOfile fd none
      closeFiles fds

def exit : Sys I F Ret := do
  if ← isInitproc then panic .initExiting
  else
    closeFiles (List.finRange NOFILE)
    beginOp
    iput (← mycwd)
    endOp
    setCwd none
    return .gone

/-- `stack` is whether the stack is accepted. -/
def clone (stack : Bool) : Sys I F Ret := do
  if stack then
    match ← allocproc with
    | none => fail
    | some np => startChild np
  else exit

inductive Call where
  | dup (n : Int)
  | read (n : Int) (len : Option (BitVec 32))
  | write (n : Int) (src : Option (List UInt8))
  | close (n : Int)
  | fstat (n : Int) (st : Bool)
  | link (old new : Option Path)
  | unlink (path : Option Path)
  | open (path : Option Path) (omode : Option (BitVec 32))
  | mkdir (path : Option Path)
  | mknod (path : Option Path) (numbers : Option (BitVec 16 × BitVec 16))
  | chdir (path : Option Path)
  | exec (path : Option Path) (argc : Option Nat)
  | pipe (ptr : Bool)
  | fork
  | clone (stack : Bool)
  | exit
deriving DecidableEq

def Call.code : Call → Sys I F Ret
  | .dup n => sysDup n
  | .read n len => sysRead n len
  | .write n src => sysWrite n src
  | .close n => sysClose n
  | .fstat n st => sysFstat n st
  | .link old new => sysLink old new
  | .unlink path => sysUnlink path
  | .open path omode => sysOpen path omode
  | .mkdir path => sysMkdir path
  | .mknod path numbers => sysMknod path numbers
  | .chdir path => sysChdir path
  | .exec path argc => sysExec path argc
  | .pipe ptr => sysPipe ptr
  | .fork => Sysfile.fork
  | .clone stack => Sysfile.clone stack
  | .exit => Sysfile.exit

end

end Xv6.Sysfile
