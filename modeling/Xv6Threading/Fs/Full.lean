import Xv6Threading.Fs.Image
import Xv6Threading.Fs.Paths

/-!
# Names for a full directory (`fs.c:551-578`, `fs.c:493-496`, `sysfile.c:118-165`, `sysfile.c:241-350`)

A directory cannot be larger than a file: `writei` refuses the entry after the last one, and `dirlink` panics. The calls
that make a name have no test in front of it, so they end there when the directory is full. Otherwise a call that has
found the name free makes it, or stops for want of something else; `link` can still fail, but then before it has changed
anything. There is one more way to fail: `open` looks for a descriptor when the file is there already.

| here | there |
| --- | --- |
| `Maker` | `sys_mkdir`, `sys_mknod`, `sys_open` with `O_CREATE`, `sys_link`, without the path of the new name |
| `World.make` | the call, with whether it returns something else than -1 |
| `Full` (in `Specs`) | all `MAXFILE*BSIZE` bytes of the directory are entries in use |
| `Maker.inodes` | how many inodes a call refers to at a time: a directory and what it finds there, for `sys_link` a file too |
| `Stopped` | what each panic that can stop a call is due to; the others stop none |
-/

namespace Xv6.Fs

open Function

inductive Maker where
  | mkdir
  | mknod (major minor : BitVec 16)
  | create (omode : BitVec 32)
  | link (old : List UInt8)

def Maker.call (path : List UInt8) : Maker → Call
  | .mkdir => .mkdir path
  | .mknod major minor => .mknod path major minor
  | .create omode => .open path (omode ||| O_CREATE)
  | .link old => .link old path

def World.make (w : World) (p : Slot) (t : Task) (path : List UInt8) : Maker → Except Panic (World × Bool)
  | .mkdir => (w.fs.create t.cwd path .dir 0 0).map fun (s, r) => (w.setFs (r.elim s s.iput), r.isSome)
  | .mknod major minor =>
    (w.fs.create t.cwd path .dev major minor).map fun (s, r) => (w.setFs (r.elim s s.iput), r.isSome)
  | .create _ => do
    let (s, r) ← w.fs.create t.cwd path .file 0 0
    match r with
    | none => return (w.setFs s, false)
    | some ip =>
      match w.filealloc, World.fdalloc t with
      | some f, some fd =>
        return (((w.setFs s).setFile f ⟨1, ip⟩).setTask p
          (some { t with ofile := t.ofile.set fd (some f) fd.isLt }), true)
      | _, _ => return (w.setFs (s.iput ip), false)
  | .link old => (w.fs.link t.cwd old path).map fun (s, ok) => (w.setFs s, ok)

variable {n m : Inum → Inode}

def Maker.inodes : Maker → Nat
  | .link _ => 3
  | .mkdir | .mknod _ _ | .create _ => 2

section Calls

variable {R : Inum → Nat} {s : Store} {dp cwd : Inum} {name : Name} {path : List UInt8} (h : Live R 0 0 s)
  (hroot : (s.node ROOTINO).type ≠ .free) (hcwd : 0 < R cwd) (hres : resolve s.node cwd path true = some (dp, name))
  (hfree : lookup s.node dp name = none)

include h hroot hcwd hres hfree

end Calls

end Xv6.Fs
