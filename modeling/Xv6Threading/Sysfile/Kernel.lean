import Xv6Threading.Lib.Machine
import Xv6Threading.Sysfile.Blocks

/-!
# Processes in the file system

All processes run their calls at once; a step is one action of one of them. The inode cache, the file table, the
pipes, the disk behind the buffer cache and the locks are shared.

| here | there |
| --- | --- |
| `Ient`, `Fent` | an entry of `icache.inode`, of `ftable.file` |
| `Ient.lock`, `Kernel.bufs` | who holds `ip->lock`, `b->lock` |
| `Pipe.freed` | how often `kfree` was called with the pipe; every `pipealloc` makes a pipe of its own |
| `Phase.busy p tr` | inside a call, with `p` left to do and the actions `tr` done, the last one first |
| `Oracle` | what the files say nothing about: memory, devices, pipes' contents, pids, and which operation commits |
| `Label.reap` | `wait` and `join` of somebody (`proc.c:309`, `proc.c:752`) |

A panic, and waiting for a lock, is that there is no step. `begin_op` may be let in at any time, and `end_op` may
find itself to be the last with any blocks to commit. The disk is any disk.
-/

namespace Xv6.Sysfile

open Function

abbrev NFILE : Nat := 100

abbrev E := Fin Fs.NINODE
abbrev F := Fin NFILE

structure Ient where
  dev : Nat
  inum : Nat
  ref : Nat
  lock : Option Slot
  valid : Bool
  node : Dinode

structure Fent where
  ref : Nat
  file : File E

structure Pipe where
  readopen : Bool
  writeopen : Bool
  freed : Nat

/-- The end for reading, or the one for writing. -/
def Pipe.isOpen (x : Pipe) (w : Bool) : Bool := if w then x.writeopen else x.readopen

/-- `pipeclose`: the pipe is freed with its second end. -/
def Pipe.close (x : Pipe) (w : Bool) : Pipe :=
  let x := if w then { x with writeopen := false } else { x with readopen := false }
  if !x.readopen ∧ !x.writeopen then { x with freed := x.freed + 1 } else x

inductive Phase where
  | unused
  | embryo
  | user
  | busy (p : Low E F Ret) (tr : List (Act E F ⊕ Blk))
  | zombie

def Phase.isUnused : Phase → Bool
  | .unused => true
  | _ => false

structure Kernel where
  icache : E → Ient
  ftable : F → Fent
  pipes : Nat → Pipe
  npipes : Nat
  disk : Nat → Block
  bufs : Nat → Option Slot
  phase : Slot → Phase
  ofile : Slot → Fd → Option F
  cwd : Slot → Option E

structure Oracle where
  flag : Bool
  num : Nat
  bytes : Option (List UInt8)
  count : Option Nat
  blocks : Option (List Nat)

namespace Kernel

def setIent (s : Kernel) (e : E) (x : Ient) : Kernel := { s with icache := update s.icache e x }
def setFent (s : Kernel) (f : F) (x : Fent) : Kernel := { s with ftable := update s.ftable f x }
def setPipe (s : Kernel) (k : Nat) (x : Pipe) : Kernel := { s with pipes := update s.pipes k x }
def setPhase (s : Kernel) (p : Slot) (x : Phase) : Kernel := { s with phase := update s.phase p x }
def setCwd (s : Kernel) (p : Slot) (x : Option E) : Kernel := { s with cwd := update s.cwd p x }
def setBuf (s : Kernel) (b : Nat) (x : Option Slot) : Kernel := { s with bufs := update s.bufs b x }

def setOfile (s : Kernel) (p : Slot) (fd : Fd) (x : Option F) : Kernel :=
  { s with ofile := update s.ofile p (update (s.ofile p) fd x) }

def setRef (s : Kernel) (e : E) (r : Nat) : Kernel := s.setIent e { s.icache e with ref := r }
def setLock (s : Kernel) (e : E) (x : Option Slot) : Kernel := s.setIent e { s.icache e with lock := x }
def setFref (s : Kernel) (f : F) (r : Nat) : Kernel := s.setFent f { s.ftable f with ref := r }
def setFile (s : Kernel) (f : F) (x : File E) : Kernel := s.setFent f { s.ftable f with file := x }

@[simp] theorem setPhase_self (s : Kernel) (p : Slot) (x : Phase) : (s.setPhase p x).phase p = x :=
  update_self ..

@[simp] theorem setPhase_of_ne (s : Kernel) {p q : Slot} (h : q ≠ p) (x : Phase) :
    (s.setPhase p x).phase q = s.phase q :=
  update_of_ne h ..

/-- The entry that caches the inode. -/
def cached (s : Kernel) (dev inum : Nat) : Option E :=
  Fin.find? fun e => 0 < (s.icache e).ref ∧ (s.icache e).dev = dev ∧ (s.icache e).inum = inum

def emptyIent (s : Kernel) : Option E := Fin.find? fun e => (s.icache e).ref = 0

/-- The entry that caches the inode is referenced once more, or else an empty one is filled. -/
def igetAt (s : Kernel) (dev inum : Nat) : Option E → Option E → Option (E × Kernel)
  | some e, _ => some (e, s.setRef e ((s.icache e).ref + 1))
  | none, some e => some (e, s.setIent e { s.icache e with dev := dev, inum := inum, ref := 1, valid := false })
  | none, none => none

def iget (s : Kernel) (dev inum : Nat) : Option (E × Kernel) := s.igetAt dev inum (s.cached dev inum) s.emptyIent

def emptyFent (s : Kernel) : Option F := Fin.find? fun f => (s.ftable f).ref = 0

def filealloc (s : Kernel) : Option F × Kernel := (s.emptyFent, s.emptyFent.elim s (s.setFref · 1))

/-- `fileclose` up to `release`. -/
def closeRef (s : Kernel) (f : F) : Option (Option (File E) × Kernel) :=
  if (s.ftable f).ref < 1 then none
  else if 1 < (s.ftable f).ref then some (none, s.setFref f ((s.ftable f).ref - 1))
  else some (some (s.ftable f).file, s.setFent f ⟨0, { (s.ftable f).file with type := .none }⟩)

def pipeInit (s : Kernel) (o : Oracle) : Option Nat × Kernel :=
  if o.flag then (some s.npipes, { s.setPipe s.npipes ⟨true, true, 0⟩ with npipes := s.npipes + 1 })
  else (none, s)

def pipeclose (s : Kernel) (k : Nat) (w : Bool) : Kernel := s.setPipe k ((s.pipes k).close w)

def unusedSlot (s : Kernel) : Option Slot := Fin.find? fun q => (s.phase q).isUnused

/-- With `o.flag` false there is no memory for a kernel stack. -/
def allocproc (s : Kernel) (o : Oracle) : Option Slot × Kernel :=
  if o.flag then (s.unusedSlot, s.unusedSlot.elim s (s.setPhase · .embryo)) else (none, s)

/-- An action of `p`: what it answers, and the state then. -/
def perform (s : Kernel) (p : Slot) (o : Oracle) : (a : Act E F ⊕ Blk) → Option (Resp Blk.Resp a × Kernel)
  | .inl .beginOp => some ((), s)
  | .inl .endOp => some (o.blocks, s)
  | .inl (.iget dev inum) => s.iget dev inum
  | .inl (.idup ip) => some ((), s.setRef ip ((s.icache ip).ref + 1))
  | .inl (.drop ip) => some ((), s.setRef ip ((s.icache ip).ref - 1))
  | .inl (.ref ip) => some ((s.icache ip).ref, s)
  | .inl (.dev ip) => some ((s.icache ip).dev, s)
  | .inl (.inum ip) => some ((s.icache ip).inum, s)
  | .inl (.acquiresleep ip) => if (s.icache ip).lock = none then some ((), s.setLock ip (some p)) else none
  | .inl (.releasesleep ip) => some ((), s.setLock ip none)
  | .inl (.holdingsleep ip) => some (decide ((s.icache ip).lock = some p), s)
  | .inl (.valid ip) => some ((s.icache ip).valid, s)
  | .inl (.setValid ip v) => some ((), s.setIent ip { s.icache ip with valid := v })
  | .inl (.fields ip) => some ((s.icache ip).node, s)
  | .inl (.assign ip d) => some ((), s.setIent ip { s.icache ip with node := d })
  | .inl (.devread _) => some (o.bytes, s)
  | .inl (.devwrite _) => some (o.count, s)
  | .inl .cwd => some (s.cwd p, s)
  | .inl (.setCwd ip) => some ((), s.setCwd p ip)
  | .inl (.ofile fd) => some (s.ofile p fd, s)
  | .inl (.setOfile fd f) => some ((), s.setOfile p fd f)
  | .inl .filealloc => some s.filealloc
  | .inl (.filedup f) =>
    if (s.ftable f).ref < 1 then none else some ((), s.setFref f ((s.ftable f).ref + 1))
  | .inl (.closeRef f) => s.closeRef f
  | .inl (.file f) => some ((s.ftable f).file, s)
  | .inl (.setFile f x) => some ((), s.setFile f x)
  | .inl (.setOff f off) => some ((), s.setFile f { (s.ftable f).file with off := off })
  | .inl .pipeInit => some (s.pipeInit o)
  | .inl (.pipeclose k w) => some ((), s.pipeclose k w)
  | .inl (.piperead _ _) => some (o.bytes, s)
  | .inl (.pipewrite _ _) => some (o.count, s)
  | .inl .allocproc => some (s.allocproc o)
  | .inl (.freeproc np) => some ((), s.setPhase np .unused)
  | .inl (.setChildFile np fd f) => some ((), s.setOfile np fd (some f))
  | .inl (.setChildCwd np ip) => some ((), s.setCwd np (some ip))
  | .inl (.startproc np) => some (o.num, s.setPhase np .user)
  | .inl .memory => some (o.flag, s)
  | .inl .isInitproc => some (decide (p = 0), s)
  | .inl (.panic _) => none
  | .inr (.bread b) => if s.bufs b = none then some (s.disk b, s.setBuf b (some p)) else none
  | .inr (.put b data) => some ((), { s with disk := update s.disk b data })
  | .inr (.bwrite _) => some ((), s)
  | .inr (.logWrite _) => some ((), s)
  | .inr (.brelse b) => some ((), s.setBuf b none)

end Kernel

inductive Label where
  | call (p : Slot) (c : Call)
  | act (p : Slot) (o : Oracle)
  | ret (p : Slot)
  | reap (p : Slot)

/-- Where a call leaves its process. -/
def Ret.phase : Ret → Phase
  | .val _ => .user
  | .gone => .zombie

def Kernel.step (sb : Super) (s : Kernel) : Label → Option Kernel
  | .call p c =>
    match s.phase p with
    | .user => some (s.setPhase p (.busy (c.prog sb) []))
    | _ => none
  | .act p o =>
    match s.phase p with
    | .busy (.act a k) tr => (s.perform p o a).map fun (r, s) => s.setPhase p (.busy (k r) (a :: tr))
    | _ => none
  | .ret p =>
    match s.phase p with
    | .busy (.ret r) _ => some (s.setPhase p r.phase)
    | _ => none
  | .reap p =>
    match s.phase p with
    | .zombie => some (s.setPhase p .unused)
    | _ => none

theorem NINODE_pos : 0 < Fs.NINODE := by decide

/-- After `userinit`: the first process has the root as its directory (`proc.c:152`). -/
def Kernel.boot (disk : Nat → Block) : Kernel where
  icache e := ⟨ROOTDEV, ROOTINO, if e = ⟨0, NINODE_pos⟩ then 1 else 0, none, false, Dinode.zero⟩
  ftable _ := ⟨0, ⟨.none, false, false, 0⟩⟩
  pipes _ := ⟨false, false, 0⟩
  npipes := 0
  disk := disk
  bufs _ := none
  phase p := if p = 0 then .user else .unused
  ofile _ _ := none
  cwd p := if p = 0 then some ⟨0, NINODE_pos⟩ else none

def machine (sb : Super) : Machine Kernel Label where
  init s := ∃ disk, s = Kernel.boot disk
  step := Kernel.step sb

end Xv6.Sysfile
