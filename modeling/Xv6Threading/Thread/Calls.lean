import Xv6Threading.Lib.Bytes
import Xv6Threading.Proc.Kernel

/-!
# Address spaces and the six calls that share them

`fork`, `clone`, `exec`, `exit`, `wait` and `join` as whole calls, on the process table together with
the page directories that exist and the user memory behind each. A call is one step, except that
`wait` and `join` may sleep and are taken up again (`resume`) once woken.

| here | there |
| --- | --- |
| `dirs` | the page directories that `setupkvm` has made and `freevm` has not freed |
| `mem d` | user memory as seen through page directory `d` |
| `freedTwice` | set when `freevm` is applied to a directory that is not in `dirs` |
| `allocproc` | `allocproc` (`proc.c:85`) |
| `fork` | `fork` (`proc.c:194`) |
| `argptr` | the check of `argptr` (`syscall.c:66`) |
| `sysClone`, `clone` | `sys_clone` (`sysproc.c:100`), `clone` (`proc.c:667`) |
| `exec` | the commit of `exec` (`exec.c:96-104`); a failing `exec` frees only what it made |
| `waitScan`, `joinScan` | one turn of the loops of `wait` (`proc.c:292`) and `join` (`proc.c:737`) |

A call returns `some` value, or `none` if it ends the process or goes to sleep. The scheduler is not
visible between calls: every `RUNNABLE` process may make the next one.
-/

namespace Xv6.Thread

open Function

/-- `KERNBASE` (`memlayout.h`). -/
abbrev KERNBASE : BitVec 32 := 0x80000000#32

/-- The call a process is asleep in. -/
inductive Pending where
  | none
  | wait
  | join (stack : BitVec 32)
deriving DecidableEq, Repr

structure Sys where
  pt : Ptable
  nextpid : BitVec 32
  initproc : Slot
  pending : Slot → Pending
  dirs : Finset Pgdir
  mem : Pgdir → Bytes
  freedTwice : Bool

inductive Act where
  /-- `ok`: the kernel stack could be allocated. `copy`: what `copyuvm` returns. -/
  | fork (p : Slot) (ok : Bool) (copy : Option Pgdir)
  | clone (p : Slot) (function arg stack : BitVec 32) (ok : Bool)
  /-- The directory, size and contents that the loader has built. -/
  | exec (p : Slot) (d : Pgdir) (sz : BitVec 32) (image : Bytes)
  | exit (p : Slot)
  | wait (p : Slot)
  | join (p : Slot) (stack : BitVec 32)
  | resume (p : Slot)
  /-- A store by user code. -/
  | store (p : Slot) (a : BitVec 32) (b : BitVec 8)

namespace Sys

def modify (s : Sys) (q : Slot) (f : Proc → Proc) : Sys := { s with pt := s.pt.modify q f }

/-- The memory of page directory `d` changed by `f`. -/
def modifyMem (s : Sys) (d : Pgdir) (f : Bytes → Bytes) : Sys :=
  { s with mem := update s.mem d (f (s.mem d)) }

def freevm (s : Sys) (d : Pgdir) : Sys :=
  { s with dirs := s.dirs.erase d, freedTwice := s.freedTwice || decide (d ∉ s.dirs) }

/-- A failed attempt leaves its pid in the slot. -/
def allocproc (s : Sys) (ok : Bool) : Sys × Option Slot :=
  match s.pt.freeSlot with
  | none => (s, none)
  | some np =>
    if ok then
      ({ s with pt := s.pt.modify np fun q => { q with state := .EMBRYO, pid := s.nextpid },
                nextpid := s.nextpid + 1 }, some np)
    else
      ({ s with pt := s.pt.modify np fun q => { q with state := .UNUSED, pid := s.nextpid },
                nextpid := s.nextpid + 1 }, none)

/-- `copyuvm` can only return a directory that did not exist. -/
def fork (s : Sys) (p : Slot) (ok : Bool) (copy : Option Pgdir) : Option (Sys × Option (BitVec 32)) :=
  match s.allocproc ok with
  | (s, none) => some (s, some (-1))
  | (s, some np) =>
    match copy with
    | none => some (s.modify np fun q => { q with pgdir := 0, state := .UNUSED }, some (-1))
    | some d =>
      if d ∈ s.dirs ∨ d = 0 then none
      else
        some ({ s with
          pt := s.pt.modify np fun q =>
            { q with pgdir := d, sz := (s.pt p).sz, parent := some p, tickets := 1, state := .RUNNABLE }
          pending := update s.pending np .none
          dirs := insert d s.dirs
          mem := update s.mem d (s.mem (s.pt p).pgdir) }, some (s.pt np).pid)

/-- `exit` panics in init. -/
def exit (s : Sys) (p : Slot) : Option (Sys × Option (BitVec 32)) :=
  if p = s.initproc then none else some ({ s with pt := s.pt.exitTable p s.initproc }, none)

/-- The pointer check of `argptr`, for an object of four bytes. -/
def argptr (s : Sys) (p : Slot) (i : BitVec 32) : Bool := !(i ≥ (s.pt p).sz || i + 4 > (s.pt p).sz)

/-- The thread's frame at the top of its stack page: the argument and a fake return address. -/
def frame (m : Bytes) (arg stack : BitVec 32) : Bytes :=
  (m.write32 (stack + PGSIZE - 4) arg).write32 (stack + PGSIZE - 8) 0xffffffff#32

def clone (s : Sys) (p : Slot) (arg stack : BitVec 32) (ok : Bool) : Option (Sys × Option (BitVec 32)) :=
  if stack + PGSIZE > (s.pt p).sz ∨ stack % PGSIZE ≠ 0 then s.exit p
  else
    match s.allocproc ok with
    | (s, none) => some (s, some (-1))
    | (s, some np) =>
      -- everything goes through the page directory of the caller, which the CPU uses
      let d := (s.pt p).pgdir
      let s' := { s with
        pt := s.pt.modify np fun q =>
          { q with pgdir := d, sz := (s.pt p).sz, parent := some p, ustack := stack, tickets := (s.pt p).tickets,
                   state := .RUNNABLE, refs := (s.pt p).refs }
        pending := update s.pending np .none }
      some ((s'.modifyMem d fun m => frame m arg stack).modifyMem d
        fun m => m.write32 (s.pt p).refs (m.read32 (s.pt p).refs + 1), some (s.pt np).pid)

def sysClone (s : Sys) (p : Slot) (function arg stack : BitVec 32) (ok : Bool) :
    Option (Sys × Option (BitVec 32)) :=
  if !s.argptr p function ∨ stack % PGSIZE ≠ 0 ∨ (s.pt p).sz - stack = 2048#32 then some (s, some (-1))
  else s.clone p arg stack ok

/-- The loader's directory is new, and its size below `KERNBASE` (`vm.c:228`). -/
def exec (s : Sys) (p : Slot) (d : Pgdir) (sz : BitVec 32) (image : Bytes) : Option (Sys × Option (BitVec 32)) :=
  if d ∈ s.dirs ∨ d = 0 ∨ sz ≥ KERNBASE then none
  else
    some (({ s with dirs := insert d s.dirs, mem := update s.mem d image }.modify p fun q =>
      { q with pgdir := d, sz := sz }).freevm (s.pt p).pgdir, some 0)

/-- `sleep(curproc, &ptable.lock)`. -/
def sleep (s : Sys) (p : Slot) (c : Pending) : Sys :=
  { s with
    pt := s.pt.modify p fun q => { q with chan := some (.proc p), state := .SLEEPING }
    pending := update s.pending p c }

def waitScan (s : Sys) (p : Slot) : Sys × Option (BitVec 32) :=
  match s.pt.zombieChild p with
  | some z =>
    ({ s with pt := s.pt.reap z, pending := update s.pending p .none }.freevm (s.pt z).pgdir,
      some (s.pt z).pid)
  | none =>
    if !s.pt.havekids p || (s.pt p).killed then
      ({ s with pending := update s.pending p .none }, some (-1))
    else (s.sleep p .wait, none)

/-- `*stack = ustack` and `*refs -= 1` go through the caller's page directory. -/
def joinScan (s : Sys) (p : Slot) (stack : BitVec 32) : Sys × Option (BitVec 32) :=
  match s.pt.zombieThread p with
  | some z =>
    ((({ s with pt := s.pt.reap z, pending := update s.pending p .none }.modifyMem (s.pt p).pgdir
      fun m => m.write32 stack (s.pt z).ustack).modifyMem (s.pt p).pgdir
      fun m => m.write32 (s.pt z).refs (m.read32 (s.pt z).refs - 1)), some (s.pt z).pid)
  | none => (s.sleep p (.join stack), none)

def sysJoin (s : Sys) (p : Slot) (stack : BitVec 32) : Sys × Option (BitVec 32) :=
  if !s.argptr p stack then (s, some (-1)) else s.joinScan p stack

/-- Woken: `sleep` clears `chan` and the loop of the call goes on. -/
def resume (s : Sys) (p : Slot) : Option (Sys × Option (BitVec 32)) :=
  let s' := s.modify p fun q => { q with chan := none }
  match s.pending p with
  | .none => none
  | .wait => some (s'.waitScan p)
  | .join stack => some (s'.joinScan p stack)

/-- `p` can make a call: it is `RUNNABLE` and not inside one. -/
def canCall (s : Sys) (p : Slot) : Bool := (s.pt p).state = .RUNNABLE && s.pending p = .none

/-- A call with its result. -/
def call (s : Sys) : Act → Option (Sys × Option (BitVec 32))
  | .fork p ok copy => if s.canCall p then s.fork p ok copy else none
  | .clone p function arg stack ok => if s.canCall p then s.sysClone p function arg stack ok else none
  | .exec p d sz image => if s.canCall p then s.exec p d sz image else none
  | .exit p => if s.canCall p then s.exit p else none
  | .wait p => if s.canCall p then some (s.waitScan p) else none
  | .join p stack => if s.canCall p then some (s.sysJoin p stack) else none
  | .resume p => if (s.pt p).state = .RUNNABLE then s.resume p else none
  | .store p a b =>
    if s.canCall p then some (s.modifyMem (s.pt p).pgdir fun m => update m a b, none) else none

def step (s : Sys) (a : Act) : Option Sys := (s.call a).map Prod.fst

/-- After `userinit`. -/
def boot (d : Pgdir) (m : Bytes) : Sys where
  pt := update (fun _ => .zero) 0
    { Proc.zero with pgdir := d, sz := PGSIZE, state := .RUNNABLE, pid := 1, tickets := 1 }
  nextpid := 2
  initproc := 0
  pending _ := .none
  dirs := {d}
  mem _ := m
  freedTwice := false

end Sys

def machine : Machine Sys Act where
  init s := ∃ d m, s = .boot d m
  step := Sys.step

theorem fst_of_some {α β : Type} {x : α × β} {a : α} {b : β} (h : some x = some (a, b)) : a = x.1 := by
  cases h
  rfl

/-- What `allocproc` returns: nothing, with the table as it was up to a pid, or the first free slot. -/
theorem allocproc_cases (s : Sys) (ok : Bool) :
    (∃ pt' n, s.allocproc ok = ({ s with pt := pt', nextpid := n }, none) ∧ (s.pt.freeSlot = none ∨ ok = false) ∧
      ∀ q, (pt' q).state = (s.pt q).state ∧ (pt' q).pgdir = (s.pt q).pgdir ∧ (pt' q).refs = (s.pt q).refs ∧
        (pt' q).sz = (s.pt q).sz) ∨
    ∃ np, s.allocproc ok = ({ s with
        pt := s.pt.modify np fun q => { q with state := .EMBRYO, pid := s.nextpid }
        nextpid := s.nextpid + 1 }, some np) ∧ s.pt.freeSlot = some np ∧ ok = true := by
  unfold Sys.allocproc
  split
  next hf =>
    exact .inl ⟨s.pt, s.nextpid, rfl, .inl hf, fun q => ⟨rfl, rfl, rfl, rfl⟩⟩
  rename_i np hf
  split
  next hok =>
    exact .inr ⟨np, rfl, hf, hok⟩
  rename_i hok
  refine .inl ⟨_, _, rfl, .inr (by simpa using hok), ?_⟩
  intro q
  rw [Ptable.modify_apply]
  split
  next e =>
    rw [e]
    exact ⟨(Ptable.freeSlot_some hf).symm, rfl, rfl, rfl⟩
  · exact ⟨rfl, rfl, rfl, rfl⟩

/-! ## What the scans look at -/

variable {f : Proc → Proc}

theorem zombieChild_modify (pt : Ptable) (p q : Slot) (hpar : ∀ x, (f x).parent = x.parent)
    (hst : ∀ x, (f x).state = x.state) : (pt.modify p f).zombieChild q = pt.zombieChild q := by
  unfold Ptable.zombieChild
  congr 1
  ext r
  rw [Ptable.modify_apply]
  split
  next e =>
    subst e
    simp only [hpar, hst]
  · rfl

theorem zombieThread_modify (pt : Ptable) (p q : Slot) (hpar : ∀ x, (f x).parent = x.parent)
    (hst : ∀ x, (f x).state = x.state) (hpg : ∀ x, (f x).pgdir = x.pgdir) :
    (pt.modify p f).zombieThread q = pt.zombieThread q := by
  have hd : ∀ r, (pt.modify p f r).parent = (pt r).parent ∧ (pt.modify p f r).pgdir = (pt r).pgdir ∧
      (pt.modify p f r).state = (pt r).state := by
    intro r
    rw [Ptable.modify_apply]
    split
    next e =>
      subst e
      exact ⟨hpar _, hpg _, hst _⟩
    · exact ⟨rfl, rfl, rfl⟩
  unfold Ptable.zombieThread
  congr 1
  ext r
  simp only [(hd r).1, (hd r).2.1, (hd r).2.2, (hd q).2.1]

end Xv6.Thread
