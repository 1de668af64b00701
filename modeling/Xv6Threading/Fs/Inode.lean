import Mathlib.Algebra.GroupWithZero.Nat
import Mathlib.Data.Fintype.Basic

/-!
# Inodes, directories and paths (`fs.c:194-352`, `fs.c:518-678`)

One disk, one operation at a time: locks, the log and the buffer cache are not here, so `iunlock` is nothing and
`iunlockput` is `iput`.

| here | there |
| --- | --- |
| `Inode` | `struct dinode`, with the contents of a directory as its list of `struct dirent` |
| `Store` | the inodes of the disk, and `ref` and `valid` of the `icache` entry an inode has, or would have |
| `iget` | `iget` (`fs.c:243`); its table of `NINODE` entries is counted |
| `skipelem`, `namex` | `fs.c:591-657`, on the bytes of a path without its NUL |

The in-memory copy of an inode is written through and is not kept apart. A name is the bytes up to its NUL, at most
`DIRSIZ`. The contents of files and the blocks of the disk are left out: a disk that is full panics in `balloc`. Without
locks `link(f, ".")` returns -1: in the code `dirlink` finds the entry for the directory that the call has locked, and the
`iput` of it waits for that lock for ever.
-/

namespace Xv6.Fs

abbrev NINODES : Nat := 200
abbrev NINODE : Nat := 50
abbrev DIRSIZ : Nat := 14

/-- `MAXFILE * BSIZE` in entries. -/
abbrev MAXENTS : Nat := 4480

abbrev Inum := Fin NINODES

theorem NINODES_ne_zero : NINODES ≠ 0 := by decide

instance : NeZero NINODES := ⟨NINODES_ne_zero⟩

abbrev ROOTINO : Inum := 1

abbrev Name := List UInt8

abbrev slash : UInt8 := 47
abbrev dot : Name := [46]
abbrev dotdot : Name := [46, 46]

/-- `inum` 0 is a free entry. -/
structure Dirent where
  inum : Inum
  name : Name
deriving DecidableEq

inductive Itype where
  | free
  | dir
  | file
  | dev
deriving DecidableEq

structure Inode where
  type : Itype
  major : BitVec 16
  minor : BitVec 16
  nlink : BitVec 16
  ents : List Dirent
deriving DecidableEq

def Inode.zero : Inode := ⟨.free, 0, 0, 0, []⟩

inductive Panic where
  | iget
  | ilock
  | ilockNoType
  | ialloc
  | dirlookup
  | dirlink
  | unlinkNlink
  | createDots
  | createDirlink
  | fileclose
  | filedup
  | initExiting
deriving DecidableEq

structure Store where
  inodes : Vector Inode NINODES
  refs : Vector Nat NINODES
  valids : Vector Bool NINODES
deriving DecidableEq

namespace Store

def node (s : Store) (i : Inum) : Inode := s.inodes[i]
def ref (s : Store) (i : Inum) : Nat := s.refs[i]
def valid (s : Store) (i : Inum) : Bool := s.valids[i]

def setNode (s : Store) (i : Inum) (x : Inode) : Store := { s with inodes := s.inodes.set i x }
def setRef (s : Store) (i : Inum) (r : Nat) : Store := { s with refs := s.refs.set i r }
def setValid (s : Store) (i : Inum) (b : Bool) : Store := { s with valids := s.valids.set i b }

def modify (s : Store) (i : Inum) (f : Inode → Inode) : Store := s.setNode i (f (s.node i))

/-! ## The inode cache -/

def iget (s : Store) (i : Inum) : Except Panic Store :=
  if 0 < s.ref i then .ok (s.setRef i (s.ref i + 1))
  else if NINODE ≤ s.refs.toList.countP (0 < ·) then .error .iget
  else .ok ((s.setRef i 1).setValid i false)

def idup (s : Store) (i : Inum) : Store := s.setRef i (s.ref i + 1)

def ilock (s : Store) (i : Inum) : Except Panic Store :=
  if s.ref i < 1 then .error .ilock
  else if s.valid i then .ok s
  else if (s.node i).type = .free then .error .ilockNoType
  else .ok (s.setValid i true)

/-- `itrunc` and `ip->type = 0`. -/
def ifree (s : Store) (i : Inum) : Store :=
  (s.modify i fun n => { n with type := .free, ents := [] }).setValid i false

def iput (s : Store) (i : Inum) : Store :=
  let s := if s.valid i ∧ (s.node i).nlink = 0 ∧ s.ref i = 1 then s.ifree i else s
  s.setRef i (s.ref i - 1)

def ialloc (s : Store) (type : Itype) : Except Panic (Store × Inum) :=
  match Fin.find? fun i : Inum => i ≠ 0 ∧ (s.node i).type = .free with
  | none => .error .ialloc
  | some i => do
    let s ← (s.setNode i { Inode.zero with type := type }).iget i
    return (s, i)

/-! ## Directories -/

/-- The offset, in entries, of the first entry with this name. -/
def findName (ents : List Dirent) (name : Name) : Option Nat :=
  ents.findIdx? fun e => e.inum ≠ 0 ∧ e.name = name

/-- `dp` is a directory; the inode found is referenced once more. -/
def dirlookup (s : Store) (dp : Inum) (name : Name) : Except Panic (Store × Option (Inum × Nat)) :=
  if (s.node dp).type ≠ .dir then .error .dirlookup
  else
    match findName (s.node dp).ents name with
    | none => .ok (s, none)
    | some off => do
      let ip := ((s.node dp).ents.getD off ⟨0, []⟩).inum
      let s ← s.iget ip
      return (s, some (ip, off))

/-- Inside the directory or at its end. -/
def writeEnt (ents : List Dirent) (off : Nat) (e : Dirent) : List Dirent :=
  if off < ents.length then ents.set off e else ents ++ [e]

/-- `writei` of one entry. -/
def writei (s : Store) (dp : Inum) (off : Nat) (e : Dirent) : Store :=
  s.modify dp fun n => { n with ents := writeEnt n.ents off e }

/-- Whether the name was free. -/
def dirlink (s : Store) (dp : Inum) (name : Name) (inum : Inum) : Except Panic (Store × Bool) := do
  let (s, r) ← s.dirlookup dp name
  match r with
  | some (ip, _) => return (s.iput ip, false)
  | none =>
    let off := (s.node dp).ents.findIdx fun e => e.inum = 0
    if MAXENTS ≤ off then throw .dirlink
    else return (s.writei dp off ⟨inum, name⟩, true)

end Store

/-! ## Paths -/

/-- The next element of a path, and what follows it and its slashes. -/
def skipelem (path : List UInt8) : Option (Name × List UInt8) :=
  let path := path.dropWhile (· = slash)
  if path = [] then none
  else some ((path.takeWhile (· ≠ slash)).take DIRSIZ, (path.dropWhile (· ≠ slash)).dropWhile (· = slash))

namespace Store

/-- The loop of `namex`. Every turn takes an element off the path, so the length of the path is fuel enough. -/
def namexLoop (parent : Bool) : Nat → Store → Inum → List UInt8 → Name →
    Except Panic (Store × Option (Inum × Name))
  | 0, s, ip, _, name => .ok (s, some (ip, name))
  | fuel + 1, s, ip, path, name =>
    match skipelem path with
    | none => if parent then .ok (s.iput ip, none) else .ok (s, some (ip, name))
    | some (name, path) => do
      let s ← s.ilock ip
      if (s.node ip).type ≠ .dir then return (s.iput ip, none)
      else if parent ∧ path = [] then return (s, some (ip, name))
      else
        let (s, r) ← s.dirlookup ip name
        match r with
        | none => return (s.iput ip, none)
        | some (next, _) => namexLoop parent fuel (s.iput ip) next path name

def namex (s : Store) (cwd : Inum) (path : List UInt8) (parent : Bool) :
    Except Panic (Store × Option (Inum × Name)) := do
  let (s, ip) ← if path.head? = some slash then (s.iget ROOTINO).map (·, ROOTINO) else .ok (s.idup cwd, cwd)
  namexLoop parent (path.length + 1) s ip path []

def namei (s : Store) (cwd : Inum) (path : List UInt8) : Except Panic (Store × Option Inum) :=
  (s.namex cwd path false).map fun (s, r) => (s, r.map (·.1))

def nameiparent (s : Store) (cwd : Inum) (path : List UInt8) : Except Panic (Store × Option (Inum × Name)) :=
  s.namex cwd path true

end Store

end Xv6.Fs
