import Xv6Threading.Sysfile.Map

/-!
# `mkfs` (`mkfs.c`)

The program that writes the first image. What a call can fail with ends the program: `none`.

| here | there |
| --- | --- |
| `State.blk`, `State.size` | what is in the image file, and how many whole sectors it has |
| `sector` | `sec * BSIZE` is an `uint` |
| `File.reads` | what `read` delivers, one buffer after the other; `none` if `open` fails |
| `mapAddr`, `mapEntry`, `map` | the body of the loop of `iappend` up to `x` |
| `turn` | the whole body |
| `main` | from the zeroing of the image on |
-/

namespace Xv6.Mkfs

open Sysfile (Block Dinode Dirent Super BSIZE IPB NDIRECT NINDIRECT MAXFILE IBLOCK T_DIR T_FILE ROOTINO)

abbrev FSSIZE : Nat := 1000
abbrev NINODES : Nat := 200
abbrev nbitmap : Nat := FSSIZE / (BSIZE * 8) + 1
abbrev ninodeblocks : Nat := NINODES / IPB + 1
abbrev nlog : Nat := 30
abbrev nmeta : Nat := 2 + nlog + ninodeblocks + nbitmap
abbrev nblocks : Nat := FSSIZE - nmeta

def sb : Super where
  size := FSSIZE
  ninodes := NINODES
  logstart := 2
  inodestart := 2 + nlog
  bmapstart := 2 + nlog + ninodeblocks

abbrev zeroes : Block := fun _ => 0

structure State where
  blk : Nat → Block
  size : Nat
  freeinode : Nat
  freeblock : Nat

/-- An argument: the bytes of its name, and what is read from the file. -/
structure File where
  name : List UInt8
  reads : Option (List (List UInt8))
  nonul : 0 ∉ name
  sized : ∀ r ∈ reads, ∀ buf ∈ r, 0 < buf.length ∧ buf.length ≤ BSIZE

def sector (sec : Nat) : Nat := sec % 2 ^ 23

namespace State

variable (s : State)

def wsect (sec : Nat) (buf : Block) : State :=
  { s with blk := Function.update s.blk (sector sec) buf, size := max s.size (sector sec + 1) }

def rsect (sec : Nat) : Option Block :=
  if sector sec < s.size then some (s.blk (sector sec)) else none

def winode (inum : Nat) (din : Dinode) : Option State := do
  let buf ← s.rsect (IBLOCK sb inum)
  return s.wsect (IBLOCK sb inum) (Sysfile.setDinode buf (inum % IPB) din)

def rinode (inum : Nat) : Option Dinode := do
  let buf ← s.rsect (IBLOCK sb inum)
  return Sysfile.dinodeAt buf (inum % IPB)

def ialloc (type : BitVec 16) : Option (State × Nat) := do
  let inum := s.freeinode
  let s ← { s with freeinode := inum + 1 }.winode inum { Dinode.zero with type := type, nlink := 1 }
  return (s, inum)

def balloc (used : Nat) : Option State :=
  if used < BSIZE * 8 then some (s.wsect sb.bmapstart ((List.range used).foldl Codec.setBit zeroes)) else none

/-- `din.addrs[k]`, with the next block if it is 0. -/
def mapAddr (din : Dinode) (k : Nat) : State × Dinode :=
  if din.addrs (Fin.ofNat _ k) = 0 then
    ({ s with freeblock := s.freeblock + 1 }, din.setAddr (Fin.ofNat _ k) (BitVec.ofNat 32 s.freeblock))
  else (s, din)

/-- Entry `e` of the indirect block `ind`. -/
def mapEntry (ind e : Nat) : Option (State × Nat) := do
  let indirect ← s.rsect ind
  if Sysfile.uintAt indirect e = 0 then
    let x := BitVec.ofNat 32 s.freeblock
    return ({ s with freeblock := s.freeblock + 1 }.wsect ind (Sysfile.setUint indirect e x), x.toNat)
  else return (s, (Sysfile.uintAt indirect e).toNat)

def map (din : Dinode) (fbn : Nat) : Option (State × Dinode × Nat) :=
  if fbn < NDIRECT then
    let (s, din) := s.mapAddr din fbn
    some (s, din, (din.addrs (Fin.ofNat _ fbn)).toNat)
  else do
    let (s, din) := s.mapAddr din NDIRECT
    let (s, x) ← s.mapEntry (din.addrs (Fin.last NDIRECT)).toNat (fbn - NDIRECT)
    return (s, din, x)

/-- Also how many bytes of `p` were written. -/
def turn (din : Dinode) (off : Nat) (p : List UInt8) : Option (State × Dinode × Nat) :=
  let fbn := off / BSIZE
  if fbn < MAXFILE then do
    let (s, din, x) ← s.map din fbn
    let n1 := min p.length ((fbn + 1) * BSIZE - off)
    let buf ← s.rsect x
    return (s.wsect x (Sysfile.setBytes buf (off - fbn * BSIZE) (p.take n1)), din, n1)
  else none

/-- The loop of `iappend`. Every turn writes one byte at least, so the length of `p` is fuel enough. -/
def iappendLoop : Nat → State → Dinode → Nat → List UInt8 → Option (State × Dinode × Nat)
  | 0, s, din, off, _ => some (s, din, off)
  | fuel + 1, s, din, off, p =>
    if p = [] then some (s, din, off)
    else do
      let (s, din, n1) ← s.turn din off p
      iappendLoop fuel s din (off + n1) (p.drop n1)

def iappend (inum : Nat) (p : List UInt8) : Option State := do
  let din ← s.rinode inum
  let (s, din, off) ← iappendLoop p.length s din din.size.toNat p
  s.winode inum { din with size := BitVec.ofNat 32 off }

end State

/-- A leading `_` is skipped. -/
def File.stripped (f : File) : List UInt8 := if f.name.head? = some 95 then f.name.tail else f.name

namespace State

variable (s : State)

/-- An entry of the root directory. -/
def addEntry (inum : Nat) (name : List UInt8) : Option State :=
  s.iappend ROOTINO (Dirent.bytes ⟨BitVec.ofNat 16 inum, name⟩)

def addReads (inum : Nat) : List (List UInt8) → State → Option State
  | [], s => some s
  | buf :: bufs, s => do addReads inum bufs (← s.iappend inum buf)

/-- The body of the loop over the arguments. -/
def addFile (f : File) : Option State :=
  if 47 ∈ f.name then none
  else do
    let reads ← f.reads
    let (s, inum) ← s.ialloc T_FILE
    let s ← s.addEntry inum f.stripped
    addReads inum reads s

def addFiles : List File → State → Option State
  | [], s => some s
  | f :: fs, s => do addFiles fs (← s.addFile f)

/-- The size of the root directory is rounded up. -/
def fixRoot : Option State := do
  let din ← s.rinode ROOTINO
  s.winode ROOTINO { din with size := BitVec.ofNat 32 ((din.size.toNat / BSIZE + 1) * BSIZE) }

end State

/-- `struct superblock` in its block. -/
def superblock : Block :=
  ([FSSIZE, nblocks, NINODES, nlog, 2, 2 + nlog, 2 + nlog + ninodeblocks].zipIdx.foldl
    fun b (v, i) => Sysfile.setUint b i (BitVec.ofNat 32 v)) zeroes

/-- The image before the first inode. -/
def blank : State :=
  ((List.range FSSIZE).foldl (State.wsect · · zeroes) ⟨fun _ => zeroes, 0, 1, nmeta⟩).wsect 1 superblock

/-- The root directory with its entries `.` and `..`. -/
def start : Option State := do
  let (s, rootino) ← blank.ialloc T_DIR
  if rootino = ROOTINO then
    let s ← s.addEntry rootino Fs.dot
    s.addEntry rootino Fs.dotdot
  else none

def main (files : List File) : Option State := do
  let s ← start
  let s ← s.addFiles files
  let s ← s.fixRoot
  s.balloc s.freeblock

end Xv6.Mkfs
