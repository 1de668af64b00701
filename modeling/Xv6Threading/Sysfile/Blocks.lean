import Xv6Threading.Lib.Codec
import Xv6Threading.Sysfile.Code

/-!
# The blocks of the disk (`fs.c:24-236`, `fs.c:287-305`, `fs.c:362-511`, `log.c:100-215`)

What `Content` stands for, as programs again: their actions are those on buffers and on the fields of the inode in
memory. A buffer is known by its block number (there is one disk). `put` is an assignment to `bp->data`.

| here | there |
| --- | --- |
| `Block` | the `BSIZE` bytes of `bp->data`; the function is never asked for more |
| `Super` | the fields of `sb` that are read after booting |
| `dinodeAt`, `setDinode` | `(struct dinode*)bp->data + i` read and written |
| `uintAt`, `setUint` | `((uint*)bp->data)[j]` |
| `findFree` | the inner loop of `balloc` |
| `impl` | the program each `Content` stands for |
| `Call.prog` | a call with its contents written out |
-/

namespace Xv6.Sysfile

abbrev BSIZE : Nat := 512
abbrev BPB : Nat := 4096
abbrev IPB : Nat := 8
abbrev NINDIRECT : Nat := 128
abbrev MAXFILE : Nat := NDIRECT + NINDIRECT

abbrev Block := Nat → UInt8

structure Super where
  size : Nat
  ninodes : Nat
  logstart : Nat
  inodestart : Nat
  bmapstart : Nat
deriving DecidableEq

def IBLOCK (sb : Super) (i : Nat) : Nat := i / IPB + sb.inodestart
def BBLOCK (sb : Super) (b : Nat) : Nat := b / BPB + sb.bmapstart

/-! ## What is in a block -/

def dinodeAt (blk : Block) (i : Nat) : Dinode where
  type := BitVec.ofNat 16 (Codec.get blk (64 * i) 2)
  major := BitVec.ofNat 16 (Codec.get blk (64 * i + 2) 2)
  minor := BitVec.ofNat 16 (Codec.get blk (64 * i + 4) 2)
  nlink := BitVec.ofNat 16 (Codec.get blk (64 * i + 6) 2)
  size := BitVec.ofNat 32 (Codec.get blk (64 * i + 8) 4)
  addrs j := BitVec.ofNat 32 (Codec.get blk (64 * i + 12 + 4 * j) 4)

/-- Byte `k` of `struct dinode`. -/
def Dinode.byte (d : Dinode) (k : Nat) : UInt8 :=
  if k < 2 then Codec.byteOf d.type.toNat k
  else if k < 4 then Codec.byteOf d.major.toNat (k - 2)
  else if k < 6 then Codec.byteOf d.minor.toNat (k - 4)
  else if k < 8 then Codec.byteOf d.nlink.toNat (k - 6)
  else if k < 12 then Codec.byteOf d.size.toNat (k - 8)
  else Codec.byteOf (d.addrs (Fin.ofNat _ ((k - 12) / 4))).toNat ((k - 12) % 4)

def setDinode (blk : Block) (i : Nat) (d : Dinode) : Block := fun k =>
  if 64 * i ≤ k ∧ k < 64 * i + 64 then d.byte (k - 64 * i) else blk k

def uintAt (blk : Block) (j : Nat) : BitVec 32 := BitVec.ofNat 32 (Codec.get blk (4 * j) 4)

def setUint (blk : Block) (j : Nat) (v : BitVec 32) : Block := Codec.store blk (4 * j) 4 v.toNat

def bytesAt (blk : Block) (off n : Nat) : List UInt8 := (List.range n).map fun k => blk (off + k)

/-- `memmove(bp->data + off, src, n)`. -/
def setBytes (blk : Block) (off : Nat) (src : List UInt8) : Block := fun k =>
  if off ≤ k ∧ k < off + src.length then src.getD (k - off) 0 else blk k

def Dirent.ofBytes (b : List UInt8) : Dirent where
  inum := BitVec.ofNat 16 (Codec.get (b.getD · 0) 0 2)
  name := ((b.drop 2).take Fs.DIRSIZ).takeWhile (· ≠ 0)

/-- The name is padded with NULs, as `strncpy` does. -/
def Dirent.bytes (de : Dirent) : List UInt8 :=
  [Codec.byteOf de.inum.toNat 0, Codec.byteOf de.inum.toNat 1] ++
    (de.name ++ List.replicate Fs.DIRSIZ 0).take Fs.DIRSIZ

/-! ## Buffers -/

inductive Blk where
  | bread (b : Nat)
  | put (b : Nat) (data : Block)
  | bwrite (b : Nat)
  | logWrite (b : Nat)
  | brelse (b : Nat)

@[reducible] def Blk.Resp : Blk → Type
  | .bread _ => Block
  | _ => Unit

abbrev Low (I F : Type) := Kern I F Blk Blk.Resp

section

variable {I F : Type}

abbrev bread (b : Nat) : Low I F Block := Prog.ask (Sum.inr (Blk.bread b))
abbrev put (b : Nat) (data : Block) : Low I F Unit := Prog.ask (Sum.inr (Blk.put b data))
abbrev bwrite (b : Nat) : Low I F Unit := Prog.ask (Sum.inr (Blk.bwrite b))
abbrev logWrite (b : Nat) : Low I F Unit := Prog.ask (Sum.inr (Blk.logWrite b))
abbrev brelse (b : Nat) : Low I F Unit := Prog.ask (Sum.inr (Blk.brelse b))

/-- The buffer is filled, logged and released. -/
def store (b : Nat) (data : Block) : Low I F Unit := do
  put b data
  logWrite b
  brelse b

def bzero (bno : Nat) : Low I F Unit := do
  let _ ← bread bno
  store bno fun _ => 0

/-- The first free block of those a bitmap block is for, from block `b` on. -/
def findFree (sb : Super) (blk : Block) (b : Nat) : Option Nat :=
  (List.range (min BPB (sb.size - b))).find? fun bi => ¬ Codec.Bit blk bi

/-- `n` bitmap blocks are left, the next one is for the blocks from `b` on. -/
def ballocLoop (sb : Super) : Nat → Nat → Low I F Nat
  | 0, _ => panic .ballocOutOfBlocks
  | n + 1, b => do
    let blk ← bread (BBLOCK sb b)
    match findFree sb blk b with
    | some bi =>
      store (BBLOCK sb b) (Codec.setBit blk bi)
      bzero (b + bi)
      return b + bi
    | none =>
      brelse (BBLOCK sb b)
      ballocLoop sb n (b + BPB)

def balloc (sb : Super) : Low I F Nat := ballocLoop sb ((sb.size + BPB - 1) / BPB) 0

def bfree (sb : Super) (b : Nat) : Low I F Unit := do
  let blk ← bread (BBLOCK sb b)
  if Codec.Bit blk (b % BPB) then store (BBLOCK sb b) (Codec.clearBit blk (b % BPB))
  else panic .freeingFreeBlock

/-! ## Inodes -/

def load (sb : Super) (ip : I) : Low I F Unit := do
  let i ← inum ip
  let blk ← bread (IBLOCK sb i)
  assign ip (dinodeAt blk (i % IPB))
  brelse (IBLOCK sb i)

def iupdate (sb : Super) (ip : I) : Low I F Unit := do
  let i ← inum ip
  let blk ← bread (IBLOCK sb i)
  store (IBLOCK sb i) (setDinode blk (i % IPB) (← fields ip))

/-- All fields 0. -/
def Dinode.zero : Dinode := ⟨0, 0, 0, 0, 0, fun _ => 0⟩

/-- `n` inodes are left, from `i` on. -/
def diallocLoop (sb : Super) (type : BitVec 16) : Nat → Nat → Low I F Nat
  | 0, _ => panic .iallocNoInodes
  | n + 1, i => do
    let blk ← bread (IBLOCK sb i)
    if (dinodeAt blk (i % IPB)).type = 0 then
      store (IBLOCK sb i) (setDinode blk (i % IPB) { Dinode.zero with type := type })
      return i
    else
      brelse (IBLOCK sb i)
      diallocLoop sb type n (i + 1)

/-- `ialloc` without `iget`. -/
def dialloc (sb : Super) (type : BitVec 16) : Low I F Nat := diallocLoop sb type (sb.ninodes - 1) 1

/-- `ip->addrs[j] = addr`. -/
def setAddr (ip : I) (j : Fin (NDIRECT + 1)) (addr : BitVec 32) : Low I F Unit := do
  let d ← fields ip
  assign ip { d with addrs := Function.update d.addrs j addr }

/-- `ip->addrs[j]`, allocated if it is 0. -/
def mapAddr (sb : Super) (ip : I) (j : Fin (NDIRECT + 1)) : Low I F Nat := do
  let addr := (← fields ip).addrs j
  if addr ≠ 0 then return addr.toNat
  else
    let b ← balloc sb
    setAddr ip j (BitVec.ofNat 32 b)
    return b

def bmap (sb : Super) (ip : I) (bn : Nat) : Low I F Nat := do
  if bn < NDIRECT then mapAddr sb ip (Fin.ofNat _ bn)
  else if bn - NDIRECT < NINDIRECT then
    let ind ← mapAddr sb ip (Fin.last NDIRECT)
    let a ← bread ind
    if uintAt a (bn - NDIRECT) ≠ 0 then
      brelse ind
      return (uintAt a (bn - NDIRECT)).toNat
    else
      let b ← balloc sb
      store ind (setUint a (bn - NDIRECT) (BitVec.ofNat 32 b))
      return b
  else panic .bmapOutOfRange

def freeDirect (sb : Super) (ip : I) : List (Fin (NDIRECT + 1)) → Low I F Unit
  | [] => return
  | j :: js => do
    let addr := (← fields ip).addrs j
    if addr ≠ 0 then
      bfree sb addr.toNat
      setAddr ip j 0
    freeDirect sb ip js

/-- The loop over the entries of the indirect block. -/
def freeEntries (sb : Super) (a : Block) : List Nat → Low I F Unit
  | [] => return
  | j :: js => do
    if uintAt a j ≠ 0 then bfree sb (uintAt a j).toNat
    freeEntries sb a js

def freeIndirect (sb : Super) (ip : I) : Low I F Unit := do
  let addr := (← fields ip).addrs (Fin.last NDIRECT)
  if addr ≠ 0 then
    let a ← bread addr.toNat
    freeEntries sb a (List.range NINDIRECT)
    brelse addr.toNat
    bfree sb addr.toNat
    setAddr ip (Fin.last NDIRECT) 0

def itrunc (sb : Super) (ip : I) : Low I F Unit := do
  freeDirect sb ip ((List.finRange NDIRECT).map Fin.castSucc)
  freeIndirect sb ip
  assign ip { ← fields ip with size := 0 }
  iupdate sb ip

/-! ## Contents -/

/-- `n` bytes are left, from `off` on. Every turn reads one at least, so their number is fuel enough. -/
def readLoop (sb : Super) (ip : I) : Nat → Nat → Nat → Low I F (List UInt8)
  | 0, _, _ => return []
  | fuel + 1, off, n =>
    if n = 0 then return []
    else do
      let b ← bmap sb ip (off / BSIZE)
      let blk ← bread b
      let m := min n (BSIZE - off % BSIZE)
      brelse b
      return bytesAt blk (off % BSIZE) m ++ (← readLoop sb ip fuel (off + m) (n - m))

/-- `readi` of an inode that is not a device. -/
def readBytes (sb : Super) (ip : I) (off n : BitVec 32) : Low I F (Option (List UInt8)) := do
  let size := (← fields ip).size
  if off > size ∨ off + n < off then return none
  else
    let n := if off + n > size then size - off else n
    return some (← readLoop sb ip n.toNat off.toNat n.toNat)

def writeLoop (sb : Super) (ip : I) : Nat → Nat → List UInt8 → Low I F Unit
  | 0, _, _ => return
  | fuel + 1, off, src =>
    if src = [] then return
    else do
      let b ← bmap sb ip (off / BSIZE)
      let blk ← bread b
      let m := min src.length (BSIZE - off % BSIZE)
      store b (setBytes blk (off % BSIZE) (src.take m))
      writeLoop sb ip fuel (off + m) (src.drop m)

/-- `writei` of an inode that is not a device. -/
def writeBytes (sb : Super) (ip : I) (off : BitVec 32) (src : List UInt8) : Low I F (Option Nat) := do
  let n := BitVec.ofNat 32 src.length
  if off > (← fields ip).size ∨ off + n < off then return none
  else if off + n > BitVec.ofNat 32 (MAXFILE * BSIZE) then return none
  else
    writeLoop sb ip src.length off.toNat src
    let d ← fields ip
    if 0 < n ∧ off + n > d.size then
      assign ip { d with size := off + n }
      iupdate sb ip
    return some src.length

/-- `none` unless a whole entry is read. -/
def readDe (sb : Super) (dp : I) (off : BitVec 32) : Low I F (Option Dirent) := do
  match ← readBytes sb dp off 16 with
  | none => return none
  | some b => return if b.length = 16 then some (Dirent.ofBytes b) else none

def writeDe (sb : Super) (dp : I) (off : BitVec 32) (de : Dirent) : Low I F Bool := do
  return (← writeBytes sb dp off de.bytes) = some 16

/-! ## The log -/

/-- `write_log`, from the entry `tail` on. -/
def writeLog (sb : Super) : Nat → List Nat → Low I F Unit
  | _, [] => return
  | tail, b :: bs => do
    let lb := sb.logstart + tail + 1
    let _ ← bread lb
    let data ← bread b
    put lb data
    bwrite lb
    brelse b
    brelse lb
    writeLog sb (tail + 1) bs

/-- `hb->n` and `hb->block`. -/
def headBytes (blk : Block) (blocks : List Nat) : Block :=
  (blocks.zipIdx.foldl fun blk (b, i) => setUint blk (i + 1) (BitVec.ofNat 32 b))
    (setUint blk 0 (BitVec.ofNat 32 blocks.length))

def writeHead (sb : Super) (blocks : List Nat) : Low I F Unit := do
  let blk ← bread sb.logstart
  put sb.logstart (headBytes blk blocks)
  bwrite sb.logstart
  brelse sb.logstart

/-- `install_trans`, from the entry `tail` on. -/
def installTrans (sb : Super) : Nat → List Nat → Low I F Unit
  | _, [] => return
  | tail, b :: bs => do
    let data ← bread (sb.logstart + tail + 1)
    let _ ← bread b
    put b data
    bwrite b
    brelse (sb.logstart + tail + 1)
    brelse b
    installTrans sb (tail + 1) bs

def commit (sb : Super) (blocks : List Nat) : Low I F Unit := do
  if blocks ≠ [] then
    writeLog sb 0 blocks
    writeHead sb blocks
    installTrans sb 0 blocks
    writeHead sb []

/-! ## Calls -/

def impl (sb : Super) : (c : Content I) → Low I F c.Resp
  | .load ip => load sb ip
  | .iupdate ip => iupdate sb ip
  | .itrunc ip => itrunc sb ip
  | .ialloc _ type => dialloc sb type
  | .readBytes ip off n => readBytes sb ip off n
  | .writeBytes ip off src => writeBytes sb ip off src
  | .readDe dp off => readDe sb dp off
  | .writeDe dp off de => writeDe sb dp off de
  | .commit blocks => commit sb blocks

def lower (sb : Super) : (a : Act I F ⊕ Content I) → Low I F (Resp Content.Resp a)
  | .inl a => act a
  | .inr c => impl sb c

def Call.prog (sb : Super) (c : Call) : Low I F Ret := c.code.expand (lower sb)

end

end Xv6.Sysfile
