import Mathlib.Data.Fintype.Prod
import Xv6Threading.Lib.Ring
import Xv6Threading.Log.Calls

/-!
# The buffer cache (`bio.c`, `ide.c:138-168`)

| here | there |
| --- | --- |
| `Node` | a `struct buf *` of the list; `none` is `&bcache.head` |
| `Links`, `binit` | the `prev` and `next` fields, and the list `binit` makes of them |
| `Buf.valid`, `Buf.dirty` | `B_VALID` and `B_DIRTY` of `flags` |
| `P` | a buffer in use: a process has one for every `bread` it has not released yet |
| `Pc` | how far such a use is |
| `Act.bget` | `bget` up to `acquiresleep` (`bio.c:64-88`); `Act.acquire` is that `acquiresleep` |
| `Act.bread` | `bread` after `bget` has returned (`bio.c:102-105`) |
| `Act.logWrite` | what `log_write` does to the buffer (`log.c:231`) |
| `Act.brelse`, `Act.drop` | `brelse` up to `releasesleep`, and the part under `bcache.lock` |

The parts under `bcache.lock` are single steps. The holder of a buffer waits for the disk, so `iderw` is a
step as well. A use that waits, or that panics for lack of buffers, takes no step. A holder that has
modified its buffer calls `bwrite` or `log_write` before `brelse`.

`want` and `left` are history: the block that was asked for, and for every block the data that the last
holder who modified it has left behind, or what was on disk at first.
-/

namespace Xv6.Bio

open Function
open Log (NBUF)

abbrev Node := Option (Fin NBUF)

/-! ## The list -/

structure Links where
  next : Node → Node
  prev : Node → Node

/-- `b` becomes the first of the list (`bio.c:51-55`, `bio.c:133-136`). -/
def Links.insert (k : Links) (b : Fin NBUF) : Links :=
  let next := update k.next (some b) (k.next none)
  let prev := update k.prev (some b) none
  ⟨update next none (some b), update prev (next none) (some b)⟩

/-- `b` is taken out of the list (`bio.c:131-132`). -/
def Links.unlink (k : Links) (b : Fin NBUF) : Links :=
  let prev := update k.prev (k.next (some b)) (k.prev (some b))
  ⟨update k.next (prev (some b)) (k.next (some b)), prev⟩

def binit : Links := (List.finRange NBUF).foldl Links.insert ⟨fun _ => none, fun _ => none⟩

/-- The loops of `bget`: the first buffer with `p`, by `next` or by `prev` from the head. -/
def find (ptr : Node → Node) (p : Fin NBUF → Bool) : Option (Fin NBUF) :=
  (LinkedRing.scan ptr none (fun x => x.any p) (NBUF + 1) (ptr none)).join.join

/-! ## The calls -/

structure Buf (β : Type) where
  dev : Nat
  blockno : Nat
  valid : Bool
  dirty : Bool
  refcnt : Nat
  data : β

def Buf.key {β : Type} (b : Buf β) : Nat × Nat := (b.dev, b.blockno)

inductive Pc where
  | idle
  /-- Waits for the sleep lock of the buffer. -/
  | waiting (i : Fin NBUF)
  /-- Has it, and has not looked at `B_VALID` yet. -/
  | locked (i : Fin NBUF)
  /-- `bread` has returned; `modified` since then, `unsaved` since the last `bwrite` or `log_write`. -/
  | holding (i : Fin NBUF) (modified unsaved : Bool)
  /-- In `brelse`, without the lock. -/
  | releasing (i : Fin NBUF)
deriving DecidableEq

/-- The buffer that is in use. -/
def Pc.ref : Pc → Option (Fin NBUF)
  | .idle => none
  | .waiting i | .locked i | .holding i _ _ | .releasing i => some i

/-- The buffer whose sleep lock is held. -/
def Pc.owns : Pc → Option (Fin NBUF)
  | .locked i | .holding i _ _ => some i
  | .idle | .waiting _ | .releasing _ => none

structure Cache (β P : Type) where
  buf : Fin NBUF → Buf β
  links : Links
  lock : Fin NBUF → Option P
  disk : Nat × Nat → β
  pc : P → Pc
  want : P → Nat × Nat
  left : Nat × Nat → β

inductive Act (β P : Type) where
  | bget (p : P) (dev blockno : Nat)
  | acquire (p : P)
  | bread (p : P)
  | modify (p : P) (v : β)
  | bwrite (p : P)
  | logWrite (p : P)
  | brelse (p : P)
  | drop (p : P)

namespace Cache

variable {β P : Type} [DecidableEq P] (s : Cache β P)

def setBuf (i : Fin NBUF) (b : Buf β) : Cache β P := { s with buf := update s.buf i b }

def setPc (p : P) (c : Pc) : Cache β P := { s with pc := update s.pc p c }

/-- `p` asks for a block and waits for buffer `i`. -/
def await (p : P) (k : Nat × Nat) (i : Fin NBUF) (b : Buf β) : Cache β P :=
  { s.setBuf i b with pc := update s.pc p (.waiting i), want := update s.want p k }

def bget (p : P) (dev blockno : Nat) : Option (Cache β P) :=
  match s.pc p with
  | .idle =>
    match find s.links.next fun i => (s.buf i).dev == dev && (s.buf i).blockno == blockno with
    | some i => some (s.await p (dev, blockno) i { s.buf i with refcnt := (s.buf i).refcnt + 1 })
    | none =>
      match find s.links.prev fun i => (s.buf i).refcnt == 0 && !(s.buf i).dirty with
      | some i => some (s.await p (dev, blockno) i ⟨dev, blockno, false, false, 1, (s.buf i).data⟩)
      | none => none
  | _ => none

def acquire (p : P) : Option (Cache β P) :=
  match s.pc p with
  | .waiting i =>
    if s.lock i = none then some { s.setPc p (.locked i) with lock := update s.lock i (some p) } else none
  | _ => none

/-- Writes a dirty buffer, reads any other; afterwards it is valid and not dirty. -/
def iderw (i : Fin NBUF) : Cache β P :=
  let b := s.buf i
  if b.dirty then
    { s.setBuf i { b with dirty := false, valid := true } with disk := update s.disk b.key b.data }
  else s.setBuf i { b with data := s.disk b.key, valid := true }

def bread (p : P) : Option (Cache β P) :=
  match s.pc p with
  | .locked i => some ((if (s.buf i).valid then s else s.iderw i).setPc p (.holding i false false))
  | _ => none

def modify (p : P) (v : β) : Option (Cache β P) :=
  match s.pc p with
  | .holding i _ _ => some ((s.setBuf i { s.buf i with data := v }).setPc p (.holding i true true))
  | _ => none

def bwrite (p : P) : Option (Cache β P) :=
  match s.pc p with
  | .holding i m _ => some (((s.setBuf i { s.buf i with dirty := true }).iderw i).setPc p (.holding i m false))
  | _ => none

def logWrite (p : P) : Option (Cache β P) :=
  match s.pc p with
  | .holding i m _ => some ((s.setBuf i { s.buf i with dirty := true }).setPc p (.holding i m false))
  | _ => none

def brelse (p : P) : Option (Cache β P) :=
  match s.pc p with
  | .holding i m false =>
    some { s.setPc p (.releasing i) with
      lock := update s.lock i none
      left := if m then update s.left (s.buf i).key (s.buf i).data else s.left }
  | _ => none

def drop (p : P) : Option (Cache β P) :=
  match s.pc p with
  | .releasing i =>
    let n := (s.buf i).refcnt - 1
    some { (s.setBuf i { s.buf i with refcnt := n }).setPc p .idle with
      links := if n = 0 then (s.links.unlink i).insert i else s.links }
  | _ => none

def step : Act β P → Option (Cache β P)
  | .bget p dev blockno => s.bget p dev blockno
  | .acquire p => s.acquire p
  | .bread p => s.bread p
  | .modify p v => s.modify p v
  | .bwrite p => s.bwrite p
  | .logWrite p => s.logWrite p
  | .brelse p => s.brelse p
  | .drop p => s.drop p

/-- After `binit`; the buffers are zero. -/
def boot (zero : β) (disk : Nat × Nat → β) : Cache β P where
  buf := fun _ => ⟨0, 0, false, false, 0, zero⟩
  links := binit
  lock := fun _ => none
  disk := disk
  pc := fun _ => .idle
  want := fun _ => (0, 0)
  left := disk

end Cache

def machine (β P : Type) [DecidableEq P] : Machine (Cache β P) (Act β P) where
  init s := ∃ zero disk, s = .boot zero disk
  step := Cache.step

end Xv6.Bio
