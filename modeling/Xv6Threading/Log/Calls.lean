import Mathlib.Data.Fintype.Basic
import Xv6Threading.Lib.Machine
import Xv6Threading.Lib.Redo

/-!
# The redo log and the buffer cache under it (`log.c`, `bio.c:57-130`)

File system operations run concurrently: `begin_op`, block modifications each followed by `log_write`,
`end_op`. The last one to end commits for all. A crash may come at any moment; then `recover_from_log`
runs, and it may be interrupted by another crash.

| here | there |
| --- | --- |
| `Disk.head`, `Disk.blk` | the header block `log.start`, decoded; all other blocks |
| `Buf`, `St.bufs` | `struct buf`, `bcache.buf[NBUF]`; `owner` is the operation that holds the sleep lock |
| `bread` | `bread`; the label says which buffer `bget` recycles if the block is not cached |
| `St.phase` | where the committer or `recover_from_log` is; `none` is `log.committing == 0` |
| `Act.check`, `Act.append`| `log_write` up to `acquire(&log.lock)` (`log.c:218-221`), and the rest |
| `Act.disk` | one round of a loop of `write_log` or `install_trans`, or one `write_head` |
| `nlog` | `log.size`, as `mkfs` writes it in the superblock (`mkfs.c:25`) |

Each step makes at most one disk write. A process that waits (for a buffer, in `begin_op`) takes no step,
nor does one that panics (`log_write`, or `bget` without a buffer to recycle). The header block is
read and written through the cache too, but by `log.c` alone, so that the cached copy is what is on disk.

`base`, `written`, `cur` and `done` are history: no step depends on them. `done` gets the current group
when the first `write_head` of its commit is done.
-/

namespace Xv6.Log

open Function

abbrev MAXOPBLOCKS : Nat := 10
abbrev LOGSIZE : Nat := MAXOPBLOCKS * 3
abbrev NBUF : Nat := MAXOPBLOCKS * 3
abbrev nlog : Nat := LOGSIZE

structure Logheader where
  n : Nat
  block : Nat → Nat

structure Disk (β : Type) where
  head : Logheader
  blk : Nat → β

structure Buf (β : Type) where
  blockno : Nat
  data : β
  /-- `B_DIRTY`. -/
  dirty : Bool
  owner : Option Nat
  /-- Modified since the last `log_write`. -/
  unlogged : Bool

abbrev Bufs (β : Type) := Fin NBUF → Option (Buf β)

inductive Pc where
  | idle
  | inOp
  /-- In `log_write` of a buffer, past the tests. -/
  | logging (i : Fin NBUF)
deriving DecidableEq

def Pc.active : Pc → Bool
  | .idle => false
  | .inOp | .logging _ => true

inductive Phase where
  | readHead
  | writeLog (tail : Nat)
  | writeHead
  | install (tail : Nat)
  | clear
  | finish

/-- The operations that commit together, and their writes: operation, block and contents. -/
structure Group (β : Type) where
  ops : List Nat
  writes : List (Nat × Nat × β)

structure St (β : Type) where
  disk : Disk β
  bufs : Bufs β
  lh : Logheader
  outstanding : Nat
  phase : Option Phase
  recovering : Bool
  pc : Nat → Pc
  nextOp : Nat
  base : Nat → β
  written : Nat → List (Nat × β)
  cur : Group β
  done : List (Group β)

inductive Act (β : Type) where
  | beginOp
  | bread (o b : Nat) (j : Fin NBUF)
  | modify (o : Nat) (i : Fin NBUF) (v : β)
  | check (o : Nat) (i : Fin NBUF)
  | append (o : Nat)
  | brelse (o : Nat) (i : Fin NBUF)
  | endOp (o : Nat)
  | disk (j k : Fin NBUF)
  /-- A process reads a block outside of any operation. -/
  | read (b : Nat) (j : Fin NBUF)
  | crash

variable {β : Type}

/-! ## The cache -/

def lookup (bufs : Bufs β) (b : Nat) : Option (Fin NBUF) :=
  Fin.find? fun i => (bufs i).any fun x => x.blockno == b

/-- Whom `bget` may recycle; `avoid` is a buffer the caller holds already. -/
def recyclable (bufs : Bufs β) (avoid : Option (Fin NBUF)) (j : Fin NBUF) : Bool :=
  avoid != some j && match bufs j with
    | none => true
    | some x => !x.dirty && x.owner.isNone

/-- The buffer of block `b`, if nobody holds it. -/
def bread (d : Nat → β) (bufs : Bufs β) (b : Nat) (avoid : Option (Fin NBUF)) (j : Fin NBUF) :
    Option (Bufs β × Fin NBUF × Buf β) :=
  match lookup bufs b with
  | some i =>
    match bufs i with
    | some x => if x.owner.isNone ∧ avoid ≠ some i then some (bufs, i, x) else none
    | none => none
  | none =>
    if recyclable bufs avoid j then
      let x : Buf β := ⟨b, d b, false, none, false⟩
      some (update bufs j (some x), j, x)
    else none

/-! ## The header -/

/-- `log_write`: the entry of the block if there is one, otherwise a new one. -/
def Logheader.add (lh : Logheader) (b : Nat) : Logheader :=
  let i := ((List.range lh.n).find? fun i => lh.block i == b).getD lh.n
  ⟨if i = lh.n then lh.n + 1 else lh.n, update lh.block i b⟩

/-- `read_head` and `write_head`: the entries below `n`; the others stay. -/
def Logheader.copy (src dst : Logheader) : Logheader :=
  ⟨src.n, fun i => if i < src.n then src.block i else dst.block i⟩

/-! ## The calls -/

section Calls

variable (start : Nat)

/-- The block of log entry `tail`. -/
def slot (tail : Nat) : Nat := start + tail + 1

/-- Outside the log area. -/
def home (b : Nat) : Prop := b < start ∨ start + nlog ≤ b

instance (b : Nat) : Decidable (home start b) := inferInstanceAs (Decidable (_ ∨ _))

namespace St

variable (s : St β)

def beginOp : Option (St β) :=
  if s.phase.isNone ∧ ¬ s.lh.n + (s.outstanding + 1) * MAXOPBLOCKS > LOGSIZE then
    some { s with
      outstanding := s.outstanding + 1
      pc := update s.pc s.nextOp .inOp
      nextOp := s.nextOp + 1
      cur := { s.cur with ops := s.cur.ops ++ [s.nextOp] } }
  else none

/-- An operation reads and writes home blocks. -/
def opBread (o b : Nat) (j : Fin NBUF) : Option (St β) :=
  if s.pc o = .inOp ∧ home start b then
    (bread s.disk.blk s.bufs b none j).map fun (bufs, i, x) =>
      { s with bufs := update bufs i (some { x with owner := some o }) }
  else none

/-- A buffer that operation `o` holds. -/
def mine (o : Nat) (i : Fin NBUF) : Option (Buf β) :=
  if s.pc o = .inOp then (s.bufs i).filter fun x => x.owner == some o else none

def modify (o : Nat) (i : Fin NBUF) (v : β) : Option (St β) :=
  (s.mine o i).map fun x =>
    { s with bufs := update s.bufs i (some { x with data := v, unlogged := true }) }

def check (o : Nat) (i : Fin NBUF) : Option (St β) :=
  (s.mine o i).bind fun _ =>
    if s.lh.n ≥ LOGSIZE ∨ s.lh.n ≥ nlog - 1 then none
    else if s.outstanding < 1 then none
    else some { s with pc := update s.pc o (.logging i) }

/-- `log_write` of a buffer `x`, with `log.lock` held. -/
def logged (o : Nat) (i : Fin NBUF) (x : Buf β) : St β :=
  { s with
    lh := s.lh.add x.blockno
    bufs := update s.bufs i (some { x with dirty := true, unlogged := false })
    pc := update s.pc o .inOp
    written := update s.written o (s.written o ++ [(x.blockno, x.data)])
    cur := { s.cur with writes := s.cur.writes ++ [(o, x.blockno, x.data)] } }

def append (o : Nat) : Option (St β) :=
  match s.pc o with
  | .logging i => (s.bufs i).map fun x => s.logged o i x
  | .idle | .inOp => none

/-- What has been modified has to be logged first. -/
def brelse (o : Nat) (i : Fin NBUF) : Option (St β) :=
  (s.mine o i).bind fun x =>
    if x.unlogged then none else some { s with bufs := update s.bufs i (some { x with owner := none }) }

/-- `end_op` of an operation that holds no buffer, up to `commit`. -/
def endOp (o : Nat) : Option (St β) :=
  if s.pc o = .inOp ∧ s.phase.isNone ∧ ∀ i, ∀ x ∈ s.bufs i, x.owner ≠ some o then
    some { s with
      outstanding := s.outstanding - 1
      pc := update s.pc o .idle
      phase := if s.outstanding - 1 = 0 then some (if s.lh.n > 0 then .writeLog 0 else .finish) else none }
  else none

/-- A block is written to disk from its buffer, which is then clean. -/
def bwrite (bufs : Bufs β) (i : Fin NBUF) (b : Nat) (v : β) (p : Phase) : St β :=
  { s with
    disk := { s.disk with blk := update s.disk.blk b v }
    bufs := update bufs i (some ⟨b, v, false, none, false⟩)
    phase := some p }

/-- The two buffers of a round: the log block and the block it is for. -/
def breadBoth (tail : Nat) (j k : Fin NBUF) : Option (Bufs β × (Fin NBUF × Buf β) × Fin NBUF × Buf β) :=
  (bread s.disk.blk s.bufs (slot start tail) none j).bind fun (bufs, l) =>
    (bread s.disk.blk bufs (s.lh.block tail) (some l.1) k).map fun (bufs, d) => (bufs, l, d)

def diskStep (j k : Fin NBUF) : Option (St β) :=
  match s.phase with
  | none => none
  | some .readHead => some { s with lh := s.disk.head.copy s.lh, phase := some (.install 0) }
  | some (.writeLog tail) =>
    if tail < s.lh.n then
      (s.breadBoth start tail j k).map fun (bufs, l, d) =>
        s.bwrite bufs l.1 (slot start tail) d.2.data (.writeLog (tail + 1))
    else some { s with phase := some .writeHead }
  | some .writeHead =>
    some { s with
      disk := { s.disk with head := s.lh.copy s.disk.head }
      phase := some (.install 0)
      done := s.done ++ [s.cur]
      cur := ⟨[], []⟩ }
  | some (.install tail) =>
    if tail < s.lh.n then
      (s.breadBoth start tail j k).map fun (bufs, l, d) =>
        s.bwrite bufs d.1 (s.lh.block tail) l.2.data (.install (tail + 1))
    else some { s with phase := some .clear }
  | some .clear =>
    some { s with
      lh := { s.lh with n := 0 }
      disk := { s.disk with head := Logheader.copy { s.lh with n := 0 } s.disk.head }
      phase := some .finish }
  | some .finish => some { s with phase := none, recovering := false }

def read (b : Nat) (j : Fin NBUF) : Option (St β) :=
  if s.recovering then none
  else (bread s.disk.blk s.bufs b none j).map fun (bufs, _) => { s with bufs := bufs }

/-- Memory is lost; `initlog` comes next. -/
def crash : St β :=
  { s with
    bufs := fun _ => none
    lh := ⟨0, fun _ => 0⟩
    outstanding := 0
    phase := some .readHead
    recovering := true
    pc := fun _ => .idle
    cur := ⟨[], []⟩ }

def step : Act β → Option (St β)
  | .beginOp => s.beginOp
  | .bread o b j => s.opBread start o b j
  | .modify o i v => s.modify o i v
  | .check o i => s.check o i
  | .append o => s.append o
  | .brelse o i => s.brelse o i
  | .endOp o => s.endOp o
  | .disk j k => s.diskStep start j k
  | .read b j => s.read b j
  | .crash => some s.crash

/-- Power on, with the disk as `mkfs` leaves it: the log is empty. -/
def boot (blk : Nat → β) (block : Nat → Nat) : St β where
  disk := ⟨⟨0, block⟩, blk⟩
  bufs := fun _ => none
  lh := ⟨0, fun _ => 0⟩
  outstanding := 0
  phase := some .readHead
  recovering := true
  pc := fun _ => .idle
  nextOp := 0
  base := blk
  written := fun _ => []
  cur := ⟨[], []⟩
  done := []

end St

def machine (β : Type) : Machine (St β) (Act β) where
  init s := ∃ blk block, s = .boot blk block
  step := St.step start

end Calls

end Xv6.Log
