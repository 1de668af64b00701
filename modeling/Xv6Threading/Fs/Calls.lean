import Xv6Threading.Fs.Inode
import Xv6Threading.Lib.Machine
import Xv6Threading.Proc.Table

/-!
# The system calls of the file system (`sysfile.c:53-399`, `file.c:28-89`, `mkfs.c:68-166`)

Every call is one step. `create`, `link` and `unlink` return whether they succeeded; what a call returns to the user is
not recorded.

| here | there |
| --- | --- |
| `create`, `link`, `unlink` | `create`, `sys_link`, `sys_unlink`, with `cwd` for `myproc()->cwd` |
| `World` | the inodes, the open-file table (inodes only, no pipes) and each process's `cwd` and `ofile` |
| `Call.fork` | what `fork` and `clone` do with files (`proc.c:220-223`, `proc.c:702-707`); a free slot is given |
| `Call.exit` | `exit` (`proc.c:246-258`); the slot may be used again, as after `wait` |
| `mkfs` | the image for a list of file names |

A file descriptor outside `0..NOFILE-1` is refused without effect, so `close` and `dup` are given one inside.
-/

namespace Xv6.Fs

namespace Store

/-- `ip->nlink += k`. -/
def addLink (s : Store) (i : Inum) (k : BitVec 16) : Store := s.modify i fun n => { n with nlink := n.nlink + k }

/-- `dirlink` that has to succeed. -/
def mustLink (s : Store) (dp : Inum) (name : Name) (inum : Inum) (e : Panic) : Except Panic Store := do
  let (s, ok) ← s.dirlink dp name inum
  if ok then return s else throw e

/-- The new inode is filled in, a directory with its first two entries. -/
def fillNew (s : Store) (dp ip : Inum) (type : Itype) (major minor : BitVec 16) : Except Panic Store := do
  let s ← s.ilock ip
  let s := s.modify ip fun n => { n with major := major, minor := minor, nlink := 1 }
  if type = .dir then
    let s ← (s.addLink dp 1).mustLink ip dot ip .createDots
    s.mustLink ip dotdot dp .createDots
  else return s

def create (s : Store) (cwd : Inum) (path : List UInt8) (type : Itype) (major minor : BitVec 16) :
    Except Panic (Store × Option Inum) := do
  let (s, r) ← s.nameiparent cwd path
  match r with
  | none => return (s, none)
  | some (dp, name) =>
    let s ← s.ilock dp
    let (s, found) ← s.dirlookup dp name
    match found with
    | some (ip, _) =>
      let s ← (s.iput dp).ilock ip
      if type = .file ∧ (s.node ip).type = .file then return (s, some ip) else return (s.iput ip, none)
    | none =>
      let (s, ip) ← s.ialloc type
      let s ← s.fillNew dp ip type major minor
      let s ← s.mustLink dp name ip .createDirlink
      return (s.iput dp, some ip)

/-- The label `bad` of `sys_link`. -/
def unbump (s : Store) (ip : Inum) : Except Panic Store := do
  let s ← s.ilock ip
  return (s.addLink ip (-1)).iput ip

def link (s : Store) (cwd : Inum) (old new : List UInt8) : Except Panic (Store × Bool) := do
  let (s, r) ← s.namei cwd old
  match r with
  | none => return (s, false)
  | some ip =>
    let s ← s.ilock ip
    if (s.node ip).type = .dir then return (s.iput ip, false)
    else
      let (s, r) ← (s.addLink ip 1).nameiparent cwd new
      match r with
      | none => (s.unbump ip).map (·, false)
      | some (dp, name) =>
        let s ← s.ilock dp
        let (s, ok) ← s.dirlink dp name ip
        if ok then return ((s.iput dp).iput ip, true) else ((s.iput dp).unbump ip).map (·, false)

/-- No entries but the first two. -/
def isdirempty (n : Inode) : Bool := (n.ents.drop 2).all fun e => e.inum = 0

/-- The entry of `ip` in `dp` is cleared, and the link counts follow. -/
def clearEnt (s : Store) (dp ip : Inum) (off : Nat) : Store :=
  let s := s.writei dp off ⟨0, []⟩
  let s := if (s.node ip).type = .dir then s.addLink dp (-1) else s
  ((s.iput dp).addLink ip (-1)).iput ip

def unlink (s : Store) (cwd : Inum) (path : List UInt8) : Except Panic (Store × Bool) := do
  let (s, r) ← s.nameiparent cwd path
  match r with
  | none => return (s, false)
  | some (dp, name) =>
    let s ← s.ilock dp
    if name = dot ∨ name = dotdot then return (s.iput dp, false)
    else
      let (s, r) ← s.dirlookup dp name
      match r with
      | none => return (s.iput dp, false)
      | some (ip, off) =>
        let s ← s.ilock ip
        if (s.node ip).nlink.toInt < 1 then throw .unlinkNlink
        else if (s.node ip).type = .dir ∧ !isdirempty (s.node ip) then return ((s.iput ip).iput dp, false)
        else return (s.clearEnt dp ip off, true)

end Store

/-! ## Processes and their files -/

abbrev NOFILE : Nat := 16
abbrev NFILE : Nat := 100

structure File where
  ref : Nat
  ip : Inum
deriving DecidableEq

structure Task where
  cwd : Inum
  ofile : Vector (Option (Fin NFILE)) NOFILE
deriving DecidableEq

structure World where
  fs : Store
  files : Vector File NFILE
  tasks : Vector (Option Task) NPROC
deriving DecidableEq

abbrev O_RDONLY : BitVec 32 := 0
abbrev O_CREATE : BitVec 32 := 0x200

inductive Call where
  | mkdir (path : List UInt8)
  | mknod (path : List UInt8) (major minor : BitVec 16)
  | open (path : List UInt8) (omode : BitVec 32)
  | link (old new : List UInt8)
  | unlink (path : List UInt8)
  | chdir (path : List UInt8)
  | close (fd : Fin NOFILE)
  | dup (fd : Fin NOFILE)
  | fork (np : Slot)
  | exit

structure Act where
  p : Slot
  call : Call

namespace World

def file (w : World) (f : Fin NFILE) : File := w.files[f]
def task (w : World) (p : Slot) : Option Task := w.tasks[p]

def setFs (w : World) (s : Store) : World := { w with fs := s }
def setFile (w : World) (f : Fin NFILE) (x : File) : World := { w with files := w.files.set f x }
def setTask (w : World) (p : Slot) (t : Option Task) : World := { w with tasks := w.tasks.set p t }

def filealloc (w : World) : Option (Fin NFILE) := Fin.find? fun f => (w.file f).ref = 0

def fdalloc (t : Task) : Option (Fin NOFILE) := Fin.find? fun fd => t.ofile[fd] = none

def filedup (w : World) (f : Fin NFILE) : Except Panic World :=
  if (w.file f).ref < 1 then .error .filedup
  else .ok (w.setFile f { w.file f with ref := (w.file f).ref + 1 })

def fileclose (w : World) (f : Fin NFILE) : Except Panic World :=
  if (w.file f).ref < 1 then .error .fileclose
  else
    let w' := w.setFile f { w.file f with ref := (w.file f).ref - 1 }
    if (w.file f).ref = 1 then .ok (w'.setFs (w'.fs.iput (w.file f).ip)) else .ok w'

/-- The inode `open` is about, referenced. -/
def openInode (s : Store) (cwd : Inum) (path : List UInt8) (omode : BitVec 32) :
    Except Panic (Store × Option Inum) := do
  if omode &&& O_CREATE ≠ 0 then
    s.create cwd path .file 0 0
  else
    let (s, r) ← s.namei cwd path
    match r with
    | none => return (s, none)
    | some ip =>
      let s ← s.ilock ip
      if (s.node ip).type = .dir ∧ omode ≠ O_RDONLY then return (s.iput ip, none) else return (s, some ip)

def openFile (w : World) (p : Slot) (t : Task) (path : List UInt8) (omode : BitVec 32) : Except Panic World := do
  let (s, r) ← openInode w.fs t.cwd path omode
  match r with
  | none => return w.setFs s
  | some ip =>
    match w.filealloc, fdalloc t with
    | some f, some fd =>
      return ((w.setFs s).setFile f ⟨1, ip⟩).setTask p (some { t with ofile := t.ofile.set fd (some f) })
    | _, _ => return w.setFs (s.iput ip)

def chdir (w : World) (p : Slot) (t : Task) (path : List UInt8) : Except Panic World := do
  let (s, r) ← w.fs.namei t.cwd path
  match r with
  | none => return w.setFs s
  | some ip =>
    let s ← s.ilock ip
    if (s.node ip).type ≠ .dir then return w.setFs (s.iput ip)
    else return (w.setFs (s.iput t.cwd)).setTask p (some { t with cwd := ip })

def close (w : World) (p : Slot) (t : Task) (fd : Fin NOFILE) : Except Panic World :=
  match t.ofile[fd] with
  | none => .ok w
  | some f => (w.setTask p (some { t with ofile := t.ofile.set fd none })).fileclose f

def dup (w : World) (p : Slot) (t : Task) (fd : Fin NOFILE) : Except Panic World :=
  match t.ofile[fd], fdalloc t with
  | some f, some fd => (w.setTask p (some { t with ofile := t.ofile.set fd (some f) })).filedup f
  | _, _ => .ok w

def fork (w : World) (t : Task) (np : Slot) : Except Panic World := do
  let w ← t.ofile.toList.foldlM (fun w o => match o with | some f => w.filedup f | none => .ok w) w
  return (w.setFs (w.fs.idup t.cwd)).setTask np (some t)

def exit (w : World) (p : Slot) (t : Task) : Except Panic World := do
  let w ← t.ofile.toList.foldlM (fun w o => match o with | some f => w.fileclose f | none => .ok w) w
  return (w.setFs (w.fs.iput t.cwd)).setTask p none

/-- A call of a process that exists; `none` if it does not, or if `fork` is given a slot in use. -/
def call (w : World) (a : Act) : Except Panic (Option World) :=
  match w.task a.p with
  | none => .ok none
  | some t =>
    match a.call with
    | .mkdir path => (w.fs.create t.cwd path .dir 0 0).map fun (s, r) => some (w.setFs (r.elim s s.iput))
    | .mknod path major minor =>
      (w.fs.create t.cwd path .dev major minor).map fun (s, r) => some (w.setFs (r.elim s s.iput))
    | .open path omode => (w.openFile a.p t path omode).map some
    | .link old new => (w.fs.link t.cwd old new).map fun (s, _) => some (w.setFs s)
    | .unlink path => (w.fs.unlink t.cwd path).map fun (s, _) => some (w.setFs s)
    | .chdir path => (w.chdir a.p t path).map some
    | .close fd => (w.close a.p t fd).map some
    | .dup fd => (w.dup a.p t fd).map some
    | .fork np => if (w.task np).isSome then .ok none else (w.fork t np).map some
    | .exit => if a.p = 0 then .error .initExiting else (w.exit a.p t).map some

def step (w : World) (a : Act) : Option World :=
  match w.call a with
  | .ok r => r
  | .error _ => none

end World

/-! ## The image `mkfs` makes -/

/-- Without a leading underscore, cut to `DIRSIZ`. -/
def fileName (arg : List UInt8) : Name := (if arg.head? = some 95 then arg.tail else arg).take DIRSIZ

/-- The entries of the root directory: its size is rounded up to the next block, of 32 entries. -/
def rootEnts (args : List (List UInt8)) : List Dirent :=
  let ents := ⟨ROOTINO, dot⟩ :: ⟨ROOTINO, dotdot⟩ ::
    args.zipIdx.map fun (arg, k) => ⟨Fin.ofNat NINODES (k + 2), fileName arg⟩
  ents ++ List.replicate ((ents.length / 32 + 1) * 32 - ents.length) ⟨0, []⟩

/-- None if a name has a slash, or if there are more files than inodes. -/
def mkfs (args : List (List UInt8)) : Option Store :=
  if args.all (fun arg => slash ∉ arg) ∧ args.length + 2 ≤ NINODES then
    some {
      inodes := Vector.ofFn fun i =>
        if i = ROOTINO then ⟨.dir, 0, 0, 1, rootEnts args⟩
        else if 2 ≤ i.val ∧ i.val < args.length + 2 then ⟨.file, 0, 0, 1, []⟩
        else Inode.zero
      refs := Vector.replicate NINODES 0
      valids := Vector.replicate NINODES false }
  else none

theorem NPROC_pos : 0 < NPROC := by decide

/-- The first process, with the root as its directory (`proc.c:152`). -/
def World.boot (s : Store) : World where
  fs := (s.setRef ROOTINO 1)
  files := Vector.replicate NFILE ⟨0, 0⟩
  tasks := (Vector.replicate NPROC none).set 0 (some ⟨ROOTINO, Vector.replicate NOFILE none⟩) NPROC_pos

def machine : Machine World Act where
  init w := ∃ args s, mkfs args = some s ∧ w = World.boot s
  step := World.step

end Xv6.Fs
