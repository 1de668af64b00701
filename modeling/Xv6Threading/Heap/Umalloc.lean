import Xv6Threading.Vm.Table

/-!
# The user heap (`umalloc.c`, `ulib.c:98-123`)

Addresses are in bytes and sizes in headers, as in the source; `sizeof(Header)` is 8. What lies behind `sbrk` is a
parameter of the allocator: the kernel's `sbrk` (`sysSbrk`), or one that is only known to return fresh memory (`fresh`).

| here | there |
| --- | --- |
| `Heap.hdr`, `Heap.freep` | the memory, read as headers; `freep`, which is null at first |
| `place`, `link` | the loop of `free` (`umalloc.c:30-32`), and the two tests after it |
| `Heap.take`, `mallocLoop` | the branch of `malloc` that has found a block, and its loop |
| `Memory.brk` | the end of the memory; for the kernel's `sbrk` the size of the process |
| `Memory.regions` | history: what `sbrk` has given and not taken back, from where to where |
| `Memory.asked` | history: the amounts that `sbrk` was called with, the last one first |
| `resize sz n ok` | the size after `growproc(n)` (`proc.c:171`), or `none` for -1; `ok` is whether there are pages enough |
| `stackOf` | the rounding in `thread_create` |

The first component of what `malloc` returns is the heap when it ends; the second is `none` if it does not return. Then
the loops have run out of fuel, which they have for all lists that fit in the address space, or a page fault on the
header of a new block has killed the process. Sizes and addresses of blocks do not wrap around here; a run in which they
would has left the address space.
-/

namespace Xv6.Umalloc

open Function
open Vm (addSz KERNBASE)

structure Header where
  ptr : Nat
  size : Nat
deriving DecidableEq

/-! ## `sbrk` -/

structure Memory where
  brk : Nat
  regions : List (Nat × Nat)
  asked : List Int

/-- The memory after a call, and the address of what it adds, or `none` for -1. -/
abbrev Sbrk := Memory → Int → Memory × Option Nat

namespace Memory

/-- `sbrk(n)` has returned -1. -/
def refuse (m : Memory) (n : Int) : Memory := { m with asked := n :: m.asked }

/-- `sbrk(n)` has returned `p`, with `n` bytes from there on. -/
def add (m : Memory) (p n : Nat) : Memory := ⟨p + n, (p, p + n) :: m.regions, n :: m.asked⟩

/-- The byte at `y` is in memory that `sbrk` has given. -/
def Owns (m : Memory) (y : Nat) : Prop := ∃ r ∈ m.regions, r.1 ≤ y ∧ y < r.2

/-- The pages up to the one that the break is in are there, and with them the header at `p`. -/
def mapped (m : Memory) (p : Nat) : Bool := p + 8 ≤ (m.brk + 4095) / 4096 * 4096

end Memory

def resize (sz : Nat) (n : Int) (ok : Bool) : Option Nat :=
  if n > 0 then
    if addSz sz n ≥ KERNBASE then none
    else if addSz sz n < sz then some sz
    else if ok then some (addSz sz n) else none
  else if n < 0 then
    if addSz sz n ≥ sz then if sz = 0 then none else some sz
    else if addSz sz n = 0 then none else some (addSz sz n)
  else some sz

/-- `sys_sbrk` (`sysproc.c:45`) returns the old size; `ok i` is whether there are pages enough at the `i`-th call. -/
def sysSbrk (ok : Nat → Bool) : Sbrk := fun m n =>
  match resize m.brk n (ok m.asked.length) with
  | none => (m.refuse n, none)
  | some sz =>
    -- memory that is given up is in no region any more
    let regions := if m.brk ≤ sz then (m.brk, sz) :: m.regions else m.regions.map fun r => (r.1, min r.2 sz)
    (⟨sz, regions, n :: m.asked⟩, some m.brk)

/-- -1, or a region above all memory so far with any gap. -/
def fresh (gap : Option Nat) : Sbrk := fun m n =>
  match gap with
  | none => (m.refuse n, none)
  | some g => if m.brk + g + n.toNat < 2 ^ 32 then (m.add (m.brk + g) n.toNat, some (m.brk + g)) else (m.refuse n, none)

/-! ## `free` -/

structure Heap where
  hdr : Nat → Header
  base : Nat
  freep : Option Nat
  mem : Memory

/-- More than the address space is long. -/
def fuel : Nat := 2 ^ 36

/-- After which node `bp` belongs. -/
def place (hdr : Nat → Header) (bp : Nat) : Nat → Nat → Option Nat
  | 0, _ => none
  | n + 1, p =>
    if bp > p ∧ bp < (hdr p).ptr then some p
    else if p ≥ (hdr p).ptr ∧ (bp > p ∨ bp < (hdr p).ptr) then some p
    else place hdr bp n (hdr p).ptr

/-- `a + a->s.size`. -/
def blockEnd (hdr : Nat → Header) (a : Nat) : Nat := a + 8 * (hdr a).size

/-- `bp` takes over the block after `p` if they touch, otherwise points to it. -/
def linkNext (hdr : Nat → Header) (p bp : Nat) : Nat → Header :=
  if blockEnd hdr bp = (hdr p).ptr then
    update hdr bp ⟨(hdr (hdr p).ptr).ptr, (hdr bp).size + (hdr (hdr p).ptr).size⟩
  else update hdr bp ⟨(hdr p).ptr, (hdr bp).size⟩

/-- `p` takes over `bp` if they touch, otherwise points to it. -/
def linkPrev (hdr : Nat → Header) (p bp : Nat) : Nat → Header :=
  if blockEnd hdr p = bp then update hdr p ⟨(hdr bp).ptr, (hdr p).size + (hdr bp).size⟩
  else update hdr p ⟨bp, (hdr p).size⟩

def link (hdr : Nat → Header) (p bp : Nat) : Nat → Header := linkPrev (linkNext hdr p bp) p bp

namespace Heap

def free (H : Heap) (ap : Nat) : Option Heap :=
  H.freep.bind fun f =>
    (place H.hdr (ap - 8) fuel f).map fun p => { H with hdr := link H.hdr p (ap - 8), freep := some p }

/-! ## `malloc` -/

/-- The new block gets its size and is freed, unless its header is not there. -/
def morecore (H : Heap) (sbrk : Sbrk) (nu : Nat) : Heap × Option (Option Nat) :=
  let nu := if nu < 4096 then 4096 else nu
  match sbrk H.mem (BitVec.ofNat 32 (8 * nu)).toInt with
  | (m, none) => ({ H with mem := m }, some none)
  | (m, some p) =>
    if m.mapped p then
      let H := { H with mem := m, hdr := update H.hdr p ⟨(H.hdr p).ptr, nu⟩ }
      match H.free (p + 8) with
      | none => (H, none)
      | some H => (H, some H.freep)
    else ({ H with mem := m }, none)

/-- A block of `n` headers from `p`, the node after `prevp`: all of it, or its tail end. -/
def take (H : Heap) (prevp p n : Nat) : Heap × Nat :=
  if (H.hdr p).size = n then
    ({ H with hdr := update H.hdr prevp ⟨(H.hdr p).ptr, (H.hdr prevp).size⟩, freep := some prevp }, p + 8)
  else
    let hdr := update H.hdr p ⟨(H.hdr p).ptr, (H.hdr p).size - n⟩
    let q := blockEnd hdr p
    ({ H with hdr := update hdr q ⟨(hdr q).ptr, n⟩, freep := some prevp }, q + 8)

def mallocLoop (sbrk : Sbrk) (n : Nat) : Nat → Heap → Nat → Nat → Heap × Option (Option Nat)
  | 0, H, _, _ => (H, none)
  | k + 1, H, prevp, p =>
    if (H.hdr p).size ≥ n then ((H.take prevp p n).1, some (some (H.take prevp p n).2))
    else if H.freep = some p then
      match H.morecore sbrk n with
      | (H, some (some p)) => mallocLoop sbrk n k H p (H.hdr p).ptr
      | (H, r) => (H, r)
    else mallocLoop sbrk n k H p (H.hdr p).ptr

/-- `(nbytes + sizeof(Header) - 1)/sizeof(Header) + 1`, where the sum is a `uint`. -/
def nunits (nbytes : BitVec 32) : Nat := (nbytes + 7).toNat / 8 + 1

/-- The list before the first request: the base alone. -/
def start (H : Heap) : Heap :=
  match H.freep with
  | some _ => H
  | none => { H with hdr := update H.hdr H.base ⟨H.base, 0⟩, freep := some H.base }

def malloc (H : Heap) (sbrk : Sbrk) (nbytes : BitVec 32) : Heap × Option (Option Nat) :=
  match H.start.freep with
  | none => (H.start, none)
  | some f => mallocLoop sbrk (nunits nbytes) fuel H.start f (H.start.hdr f).ptr

end Heap

/-! ## Threads -/

/-- The stack that `thread_create` makes of a pointer: the next page boundary, if it is not on one. -/
def stackOf (p : Nat) : Nat := if p % 4096 ≠ 0 then p + (4096 - p % 4096) else p

end Xv6.Umalloc
