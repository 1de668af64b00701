import Mathlib.Algebra.Order.Ring.Int
import Mathlib.Data.List.Nodup

/-!
# Page tables and the physical allocator (`vm.c:36-358`, `kalloc.c`, `proc.c:171`)

Addresses are kept as page numbers: a virtual page `v` has directory index `v / 1024` and table index
`v % 1024`. A page directory is its contents, with every page table inside it next to the number of
the physical page the table lives in.

| here | there |
| --- | --- |
| `Pte`, `Ptab`, `Pgd` | `pte_t` (address and flag bits apart), a page table, the entries of a `pde_t *` |
| `Kmem` | `kmem.freelist`, and the bytes of every physical page |
| `kalloc`, `kfree` | `kalloc` (`kalloc.c:83`), `kfree` (`kalloc.c:60`) |
| `walk`, `walkAlloc` | `walkpgdir` (`vm.c:36`) with `alloc` 0 and 1 |
| `mappages` | `mappages` (`vm.c:61`), given the number of pages |
| `kmap`, `setupkvm` | `kmap` and `setupkvm` (`vm.c:105-135`) |
| `allocuvm`, `deallocuvm`, `freevm`, `copyuvm` | `vm.c:222`, `vm.c:256`, `vm.c:284`, `vm.c:316` |
| `growproc` | `growproc` (`proc.c:171`): the new `sz` and the result |

The loops over addresses run over page numbers: `a < sz` is `v < pageCount sz`, as long as no size is
above `0xfffff000`, and the kernel passes none above `KERNBASE`. `PHYSTOP` is below `DEVSPACE`, so the
panic of `setupkvm` is not reached.
-/

namespace Xv6.Vm

open Function

abbrev Ppn := Nat

/-- The bytes of a page, by offset. -/
abbrev Page := Nat → BitVec 8

structure Pte where
  ppn : Ppn
  flags : BitVec 12
deriving DecidableEq, Repr

abbrev PTE_P : BitVec 12 := 1#12
abbrev PTE_W : BitVec 12 := 2#12
abbrev PTE_U : BitVec 12 := 4#12

def Pte.zero : Pte := ⟨0, 0⟩

def Pte.present (e : Pte) : Bool := e.flags.getLsbD 0

structure Ptab where
  page : Ppn
  pte : Nat → Pte

abbrev Pgd := Nat → Option Ptab

structure Kmem where
  free : List Ppn
  ram : Ppn → Page

inductive Panic where
  | remap
  | kfree
  | pteShouldExist
  | pageNotPresent
deriving DecidableEq, Repr

/-- `KERNBASE`, in pages and in bytes (`memlayout.h:8`). -/
abbrev UPAGES : Nat := 524288
abbrev KERNBASE : Nat := 0x80000000

/-- Where the linker has put the kernel: `data` starts on a page of its own above the kernel's text
(`kernel.ld`), and `end` is somewhere above it. -/
structure Layout where
  /-- The page number of `V2P(data)`. -/
  data : Nat
  /-- `V2P(end)` in bytes. -/
  end_ : Nat
  extmem_lt : 256 < data
  data_lt : data < 57344

/-- `PGROUNDUP(sz) / PGSIZE`. -/
def pageCount (sz : Nat) : Nat := (sz + 4095) / 4096

def kalloc (k : Kmem) : Option (Ppn × Kmem) :=
  match k.free with
  | [] => none
  | f :: free => some (f, { k with free := free })

def memset (k : Kmem) (f : Ppn) (b : BitVec 8) : Kmem := { k with ram := update k.ram f fun _ => b }

/-- A page that `kfree` accepts: above the kernel and below `PHYSTOP`. -/
def Layout.owns (L : Layout) (f : Ppn) : Bool := L.end_ ≤ f * 4096 && f < 57344

def kfree (L : Layout) (k : Kmem) (f : Ppn) : Except Panic Kmem :=
  if L.owns f then .ok { (memset k f 1#8) with free := f :: k.free } else .error .kfree

/-- A page directory and the allocator it draws from. -/
structure Space where
  kmem : Kmem
  pgd : Pgd

def walk (pgd : Pgd) (v : Nat) : Option Pte := (pgd (v / 1024)).map fun t => t.pte (v % 1024)

def walkAlloc (s : Space) (v : Nat) : Option Space :=
  match s.pgd (v / 1024) with
  | some _ => some s
  | none =>
    (kalloc s.kmem).map fun (f, k) =>
      ⟨memset k f 0#8, update s.pgd (v / 1024) (some ⟨f, fun _ => .zero⟩)⟩

/-- `*pte = e` at the entry `walk` finds. -/
def setPte (pgd : Pgd) (v : Nat) (e : Pte) : Pgd :=
  update pgd (v / 1024)
    ((pgd (v / 1024)).map fun t => { t with pte := update t.pte (v % 1024) e })

/-- `false`: out of memory, with what was mapped so far left in place. -/
def mappages : Nat → Space → Nat → Ppn → BitVec 12 → Except Panic (Space × Bool)
  | 0, s, _, _, _ => .ok (s, true)
  | n + 1, s, v, pa, perm =>
    match walkAlloc s v with
    | none => .ok (s, false)
    | some s =>
      if (walk s.pgd v).any Pte.present then .error .remap
      else mappages n { s with pgd := setPte s.pgd v ⟨pa, perm ||| PTE_P⟩ } (v + 1) (pa + 1) perm

/-- From page `v` to page `to_`; a directory entry that is missing is skipped as a whole. -/
def deallocLoop (L : Layout) : Nat → Space → Nat → Nat → Except Panic Space
  | 0, s, _, _ => .ok s
  | n + 1, s, v, to_ =>
    if v < to_ then
      match walk s.pgd v with
      | none => deallocLoop L n s ((v / 1024 + 1) * 1024) to_
      | some e =>
        if e.present then
          if e.ppn = 0 then .error .kfree
          else
            match kfree L s.kmem e.ppn with
            | .error p => .error p
            | .ok k => deallocLoop L n ⟨k, setPte s.pgd v .zero⟩ (v + 1) to_
        else deallocLoop L n s (v + 1) to_
    else .ok s

def deallocuvm (L : Layout) (s : Space) (oldsz newsz : Nat) : Except Panic (Space × Nat) :=
  if newsz ≥ oldsz then .ok (s, oldsz)
  else
    (deallocLoop L (pageCount oldsz - pageCount newsz) s (pageCount newsz) (pageCount oldsz)).map
      fun s => (s, newsz)

/-- The body of `allocuvm` from page `v` on, with `n` pages to go. -/
def allocLoop (L : Layout) (oldsz newsz : Nat) : Nat → Space → Nat → Except Panic (Space × Nat)
  | 0, s, _ => .ok (s, newsz)
  | n + 1, s, v =>
    match kalloc s.kmem with
    | none => (deallocuvm L s newsz oldsz).map fun r => (r.1, 0)
    | some (f, k) =>
      match mappages 1 { s with kmem := memset k f 0#8 } v f (PTE_W ||| PTE_U) with
      | .error p => .error p
      | .ok (s, true) => allocLoop L oldsz newsz n s (v + 1)
      | .ok (s, false) =>
        (deallocuvm L s newsz oldsz).bind fun r =>
          (kfree L r.1.kmem f).map fun k => ({ r.1 with kmem := k }, 0)

def allocuvm (L : Layout) (s : Space) (oldsz newsz : Nat) : Except Panic (Space × Nat) :=
  if newsz ≥ KERNBASE then .ok (s, 0)
  else if newsz < oldsz then .ok (s, oldsz)
  else allocLoop L oldsz newsz (pageCount newsz - pageCount oldsz) s (pageCount oldsz)

/-- The page tables of a directory, freed in order. -/
def freeTables (L : Layout) (pgd : Pgd) (k : Kmem) : List Nat → Except Panic Kmem
  | [] => .ok k
  | i :: is =>
    match pgd i with
    | none => freeTables L pgd k is
    | some t => (kfree L k t.page).bind fun k => freeTables L pgd k is

def freevm (L : Layout) (s : Space) (d : Ppn) : Except Panic Kmem :=
  (deallocuvm L s KERNBASE 0).bind fun r =>
    (freeTables L r.1.pgd r.1.kmem (List.range 1024)).bind fun k => kfree L k d

/-- Virtual page, number of pages, physical page and permissions of the kernel's mappings. -/
def kmap (L : Layout) : List (Nat × Nat × Ppn × BitVec 12) :=
  [(UPAGES, 256, 0, PTE_W), (UPAGES + 256, L.data - 256, 256, 0),
    (UPAGES + L.data, 57344 - L.data, L.data, PTE_W), (1040384, 8192, 1040384, PTE_W)]

def mapAll (s : Space) : List (Nat × Nat × Ppn × BitVec 12) → Except Panic (Space × Bool)
  | [] => .ok (s, true)
  | (v, n, pa, perm) :: ks =>
    match mappages n s v pa perm with
    | .error p => .error p
    | .ok (s, true) => mapAll s ks
    | .ok (s, false) => .ok (s, false)

def setupkvm (L : Layout) (k : Kmem) : Except Panic (Kmem × Option (Ppn × Pgd)) :=
  match kalloc k with
  | none => .ok (k, none)
  | some (d, k) =>
    match mapAll ⟨memset k d 0#8, fun _ => none⟩ (kmap L) with
    | .error p => .error p
    | .ok (s, true) => .ok (s.kmem, some (d, s.pgd))
    | .ok (s, false) => (freevm L s d).map fun k => (k, none)

/-- The body of `copyuvm` from page `v` on; `s` is the copy. -/
def copyLoop (L : Layout) (src : Pgd) : Nat → Space → Nat → Except Panic (Space × Bool)
  | 0, s, _ => .ok (s, true)
  | n + 1, s, v =>
    match walk src v with
    | none => .error .pteShouldExist
    | some e =>
      if e.present then
        match kalloc s.kmem with
        | none => .ok (s, false)
        | some (f, k) =>
          match mappages 1 { s with kmem := { k with ram := update k.ram f (k.ram e.ppn) } } v f e.flags with
          | .error p => .error p
          | .ok (s, true) => copyLoop L src n s (v + 1)
          | .ok (s, false) => (kfree L s.kmem f).map fun k => ({ s with kmem := k }, false)
      else .error .pageNotPresent

def copyuvm (L : Layout) (src : Pgd) (sz : Nat) (k : Kmem) : Except Panic (Kmem × Option (Ppn × Pgd)) :=
  match setupkvm L k with
  | .error p => .error p
  | .ok (k, none) => .ok (k, none)
  | .ok (k, some (d, pgd)) =>
    match copyLoop L src (pageCount sz) ⟨k, pgd⟩ 0 with
    | .error p => .error p
    | .ok (s, true) => .ok (s.kmem, some (d, s.pgd))
    | .ok (s, false) => (freevm L s d).map fun k => (k, none)

/-- `sz + n` in 32 bits. -/
def addSz (sz : Nat) (n : Int) : Nat := ((sz + n) % 2 ^ 32).toNat

def growproc (L : Layout) (s : Space) (sz : Nat) (n : Int) : Except Panic (Space × Nat × Int) :=
  if n > 0 then
    (allocuvm L s sz (addSz sz n)).map fun r => if r.2 = 0 then (r.1, sz, -1) else (r.1, r.2, 0)
  else if n < 0 then
    (deallocuvm L s sz (addSz sz n)).map fun r => if r.2 = 0 then (r.1, sz, -1) else (r.1, r.2, 0)
  else .ok (s, sz, 0)

end Xv6.Vm
