import Xv6Threading.Lib.Machine
import Xv6Threading.Proc.Table

/-!
# The process table in motion (`proc.c:85-432`, `proc.c:487-619`, `proc.c:667-773`)

Every critical section under `ptable.lock` is one step, and so is each piece of `fork`, `clone` and
`allocproc` that runs between two of them on the slot being made. A CPU executes `c->proc`; a
section that ends in `sched()` leaves the CPU to the scheduler with `c->proc = 0`, and a dispatch
is a step of its own, so the lock may be free or not in between.

| here | there |
| --- | --- |
| `Kernel.cpu c` | `cpus[c].proc` |
| `Pc` | what a process still has to do of the call it is in |
| `allocproc`, `kalloc` | `allocproc` (`proc.c:91-109`): the critical section, then the kernel stack |
| `copyuvm`, `share` | `fork` (`proc.c:206-218`) and `clone` (`proc.c:683-697`) on the new slot |
| `publish`, `setRefs` | the last critical section of both, and `clone`'s write after it (`proc.c:710-717`) |
| `exit`, `wait`, `join` | `exit` (`proc.c:262-280`), one turn of the loops of `wait` and `join` |
| `sleep`, `yield`, `dispatch` | `sleep` (`proc.c:560-567`), `yield`, one entry of `scheduler` (`proc.c:404-426`) |
| `exec`, `growproc` | the fields `exec` (`exec.c:97-99`) and `growproc` (`proc.c:185`) assign to a running process |
| `wakeupEntry` | one iteration of the `wakeup1` that `mutex_unlock` runs without `ptable.lock` |

Not here: the user memory that `clone` and `join` write, files, and the panics of `sched`.
-/

namespace Xv6

open Function (update update_apply)

/-- `PGSIZE` (`mmu.h`). -/
abbrev PGSIZE : BitVec 32 := 4096#32

/-- The two callers of `allocproc` after boot. -/
inductive Maker where
  | fork
  | clone (stack : BitVec 32)
deriving DecidableEq, Repr

inductive Pc where
  /-- In user space, or in a part of the kernel that does not touch the process table. -/
  | run
  /-- `allocproc` has made `np` an `EMBRYO`; `kalloc` of its kernel stack is next. -/
  | kstack (by_ : Maker) (np : Slot)
  /-- `allocproc` has returned `np`. -/
  | fill (by_ : Maker) (np : Slot)
  /-- `np` is complete; it still has to be made `RUNNABLE`. -/
  | publish (by_ : Maker) (np : Slot)
  /-- `clone` after its critical section. -/
  | refs (np : Slot)
  /-- In `sleep`, called by `wait`. -/
  | wait
  /-- In `sleep`, called by `join`. -/
  | join
  /-- In `sleep`, called by anything else. -/
  | sleep
deriving DecidableEq, Repr

/-- The slot being made. -/
def Pc.makes : Pc → Option Slot
  | .kstack _ np | .fill _ np | .publish _ np => some np
  | .run | .refs _ | .wait | .join | .sleep => none

/-- Its parent is already set. -/
def Pc.adopted : Pc → Bool
  | .publish _ _ => true
  | .run | .kstack _ _ | .fill _ _ | .refs _ | .wait | .join | .sleep => false

/-- Inside `sleep`. -/
def Pc.inSleep : Pc → Bool
  | .wait | .join | .sleep => true
  | .run | .kstack _ _ | .fill _ _ | .publish _ _ | .refs _ => false

structure Kernel (ncpu : Nat) where
  pt : Ptable
  nextpid : BitVec 32
  initproc : Slot
  cpu : Fin ncpu → Option Slot
  pc : Slot → Pc

/-- What the process on a CPU does next. -/
inductive Op where
  | fork
  | clone (stack : BitVec 32)
  | kalloc (ok : Bool)
  /-- `copyuvm` returns `d` (0 on failure). -/
  | copyuvm (d : Pgdir)
  | share
  | publish
  | setRefs
  | exit
  | wait
  | join
  | sleep (chan : Option Chan)
  | yield
  | exec (d : Pgdir) (sz : BitVec 32)
  | growproc (sz : BitVec 32)
deriving DecidableEq, Repr

inductive Act (ncpu : Nat) where
  | on (c : Fin ncpu) (op : Op)
  /-- The scheduler of `c` reaches entry `p`; `draw` is what `random` returns. -/
  | dispatch (c : Fin ncpu) (p : Slot) (draw : BitVec 32)
  | wakeup (chan : Option Chan)
  | wakeupEntry (m : Mslot) (q : Slot)
  | kill (pid : BitVec 32)
  | changeTickets (pid tickets : BitVec 32)
deriving DecidableEq, Repr

namespace Kernel

variable {ncpu : Nat}

def setPc (k : Kernel ncpu) (p : Slot) (pc : Pc) : Kernel ncpu := { k with pc := update k.pc p pc }

/-- Entry `q` of the table changed by `f`. -/
def modify (k : Kernel ncpu) (q : Slot) (f : Proc → Proc) : Kernel ncpu := { k with pt := k.pt.modify q f }

/-- `c->proc = 0`, after `sched()` has switched to the scheduler. -/
def idle (k : Kernel ncpu) (c : Fin ncpu) : Kernel ncpu := { k with cpu := update k.cpu c none }

/-- With no `UNUSED` slot the call returns -1. -/
def allocproc (k : Kernel ncpu) (p : Slot) (m : Maker) : Kernel ncpu :=
  match k.pt.freeSlot with
  | none => k
  | some np =>
    { k with
      pt := k.pt.modify np fun q => { q with state := .EMBRYO, pid := k.nextpid }
      nextpid := k.nextpid + 1 }.setPc p (.kstack m np)

/-- `exit` panics in init. -/
def exit (k : Kernel ncpu) (c : Fin ncpu) (p : Slot) : Option (Kernel ncpu) :=
  if p = k.initproc then none else some ({ k with pt := k.pt.exitTable p k.initproc }.idle c)

/-- `p->chan = chan; p->state = SLEEPING; sched()`. -/
def sleepOn (k : Kernel ncpu) (c : Fin ncpu) (p : Slot) (chan : Option Chan) (pc : Pc) : Kernel ncpu :=
  ((k.modify p fun q => { q with chan := chan, state := .SLEEPING }).setPc p pc).idle c

def wait (k : Kernel ncpu) (c : Fin ncpu) (p : Slot) : Kernel ncpu :=
  match k.pt.zombieChild p with
  | some z => { k with pt := k.pt.reap z }.setPc p .run
  | none =>
    if !k.pt.havekids p || (k.pt p).killed then k.setPc p .run else k.sleepOn c p (some (.proc p)) .wait

def join (k : Kernel ncpu) (c : Fin ncpu) (p : Slot) : Kernel ncpu :=
  match k.pt.zombieThread p with
  | some z => { k with pt := k.pt.reap z }.setPc p .run
  | none => k.sleepOn c p (some (.proc p)) .join

/-- The check at the top of `clone`; a call that fails it ends in `exit()`. -/
def badStack (k : Kernel ncpu) (p : Slot) (stack : BitVec 32) : Bool :=
  stack + PGSIZE > (k.pt p).sz || stack % PGSIZE != 0

/-- One step of `p`, the process on `c`. -/
def op (k : Kernel ncpu) (c : Fin ncpu) (p : Slot) : Op → Option (Kernel ncpu)
  | .fork => if k.pc p = .run then some (k.allocproc p .fork) else none
  | .clone stack =>
    if k.pc p = .run then
      if k.badStack p stack then k.exit c p else some (k.allocproc p (.clone stack))
    else none
  | .kalloc ok =>
    match k.pc p with
    | .kstack m np =>
      if ok then some (k.setPc p (.fill m np))
      else some ((k.modify np fun q => { q with state := .UNUSED }).setPc p .run)
    | _ => none
  | .copyuvm d =>
    match k.pc p with
    | .fill .fork np =>
      if d = 0 then some ((k.modify np fun q => { q with pgdir := 0, state := .UNUSED }).setPc p .run)
      else
        -- DEFAULT_TICKETS is 1
        some ((k.modify np fun q =>
          { q with pgdir := d, sz := (k.pt p).sz, parent := some p, tickets := 1 }).setPc p (.publish .fork np))
    | _ => none
  | .share =>
    match k.pc p with
    | .fill (.clone stack) np =>
      some ((k.modify np fun q =>
        { q with pgdir := (k.pt p).pgdir, sz := (k.pt p).sz, parent := some p, ustack := stack }).setPc p
          (.publish (.clone stack) np))
    | _ => none
  | .publish =>
    match k.pc p with
    | .publish .fork np =>
      some (((k.modify np fun q => { q with state := .RUNNABLE }).setPc np .run).setPc p .run)
    | .publish (.clone _) np =>
      (k.pt np).parent.map fun r =>
        ((k.modify np fun q => { q with tickets := (k.pt r).tickets, state := .RUNNABLE }).setPc np .run).setPc p
          (.refs np)
    | _ => none
  | .setRefs =>
    match k.pc p with
    | .refs np => some ((k.modify np fun q => { q with refs := (k.pt p).refs }).setPc p .run)
    | _ => none
  | .exit => if k.pc p = .run then k.exit c p else none
  | .wait => if k.pc p = .run ∨ k.pc p = .wait then some (k.wait c p) else none
  | .join => if k.pc p = .run ∨ k.pc p = .join then some (k.join c p) else none
  | .sleep chan => if k.pc p = .run then some (k.sleepOn c p chan .sleep) else none
  | .yield =>
    if (k.pc p).inSleep then none
    else some ((k.modify p fun q => { q with state := .RUNNABLE }).idle c)
  | .exec d sz => if k.pc p = .run then some (k.modify p fun q => { q with pgdir := d, sz := sz }) else none
  | .growproc sz => if k.pc p = .run then some (k.modify p fun q => { q with sz := sz }) else none

/-- The lottery: without tickets to draw from `choice` stays -1. -/
def wins (k : Kernel ncpu) (p : Slot) (draw : BitVec 32) : Bool :=
  if 0 < k.pt.getTickets.toInt then
    0 ≤ draw.toInt && draw.toInt < k.pt.getTickets.toInt && draw.toInt < (k.pt p).tickets.toInt
  else -1 < (k.pt p).tickets.toInt

/-- `swtch` returns into the call `p` was switched out of; `sleep` then clears `chan`. -/
def resume (k : Kernel ncpu) (p : Slot) : Kernel ncpu :=
  match k.pc p with
  | .wait | .join => k.modify p fun q => { q with chan := none }
  | .sleep => (k.modify p fun q => { q with chan := none }).setPc p .run
  | .run | .kstack _ _ | .fill _ _ | .publish _ _ | .refs _ => k

def dispatch (k : Kernel ncpu) (c : Fin ncpu) (p : Slot) (draw : BitVec 32) : Option (Kernel ncpu) :=
  if k.cpu c = none ∧ (k.pt p).state = .RUNNABLE ∧ k.wins p draw then
    some ({ k with
      pt := k.pt.modify p fun q => { q with state := .RUNNING }
      cpu := update k.cpu c (some p) }.resume p)
  else none

/-- One entry of an unlocked `wakeup1(m)`. -/
def wakeupEntry (k : Kernel ncpu) (m : Mslot) (q : Slot) : Kernel ncpu :=
  if (k.pt q).state = .SLEEPING ∧ (k.pt q).chan = some (.mutex m) then
    k.modify q fun p => { p with state := .RUNNABLE }
  else k

def step (k : Kernel ncpu) : Act ncpu → Option (Kernel ncpu)
  | .on c o => (k.cpu c).bind fun p => k.op c p o
  | .dispatch c p draw => k.dispatch c p draw
  | .wakeup chan => some { k with pt := k.pt.wakeup1 chan }
  | .wakeupEntry m q => some (k.wakeupEntry m q)
  | .kill pid => some { k with pt := (k.pt.kill pid).1 }
  | .changeTickets pid tickets => some { k with pt := k.pt.changeTickets pid tickets }

/-- After `userinit` (`proc.c:138-166`): init is `RUNNABLE` in the first slot, and no CPU has
entered a process. -/
def boot (d : Pgdir) : Kernel ncpu where
  pt := update (fun _ => .zero) 0
    { Proc.zero with pgdir := d, sz := PGSIZE, state := .RUNNABLE, pid := 1, tickets := 1 }
  nextpid := 2
  initproc := 0
  cpu _ := none
  pc _ := .run

end Kernel

def kernel (ncpu : Nat) : Machine (Kernel ncpu) (Act ncpu) where
  init k := ∃ d, k = .boot d
  step := Kernel.step

/-! ## Fields after an update -/

namespace Kernel

variable {ncpu : Nat}

section

variable (k : Kernel ncpu)
include k

@[simp] theorem setPc_pc (p q : Slot) (c : Pc) : (k.setPc p c).pc q = if q = p then c else k.pc q := by
  simp [setPc, update_apply]
@[simp] theorem setPc_pt (p : Slot) (c : Pc) : (k.setPc p c).pt = k.pt := rfl
@[simp] theorem setPc_cpu (p : Slot) (c : Pc) : (k.setPc p c).cpu = k.cpu := rfl
@[simp] theorem setPc_initproc (p : Slot) (c : Pc) : (k.setPc p c).initproc = k.initproc := rfl
@[simp] theorem modify_pt (q r : Slot) (f : Proc → Proc) :
    (k.modify q f).pt r = if r = q then f (k.pt q) else k.pt r := by
  simp [modify, Ptable.modify, update_apply]
@[simp] theorem modify_pc (q : Slot) (f : Proc → Proc) : (k.modify q f).pc = k.pc := rfl
@[simp] theorem modify_cpu (q : Slot) (f : Proc → Proc) : (k.modify q f).cpu = k.cpu := rfl
@[simp] theorem modify_initproc (q : Slot) (f : Proc → Proc) : (k.modify q f).initproc = k.initproc := rfl
theorem modify_congr {q : Slot} {f g : Proc → Proc} (h : f (k.pt q) = g (k.pt q)) :
    k.modify q f = k.modify q g := by
  simp only [modify, Ptable.modify, h]

@[simp] theorem idle_cpu (c d : Fin ncpu) : (k.idle c).cpu d = if d = c then none else k.cpu d := by
  simp [idle, update_apply]
@[simp] theorem idle_pt (c : Fin ncpu) : (k.idle c).pt = k.pt := rfl
@[simp] theorem idle_pc (c : Fin ncpu) : (k.idle c).pc = k.pc := rfl
@[simp] theorem idle_initproc (c : Fin ncpu) : (k.idle c).initproc = k.initproc := rfl

end

end Kernel

/-! ## What one step can do -/

/-- The steps of the machine, sorted by what they do to the table. `hc` says who executes. -/
inductive Move {ncpu : Nat} (k : Kernel ncpu) : Act ncpu → Kernel ncpu → Prop
  | full {c p o} (hc : k.cpu c = some p) : Move k (.on c o) k
  | alloc {c p o np} (hc : k.cpu c = some p) (hpc : k.pc p = .run) (hf : k.pt.freeSlot = some np) (m : Maker)
      (ho : o = .fork ∨ ∃ stack, o = .clone stack ∧ k.badStack p stack = false) :
    Move k (.on c o) ({ k with
      pt := k.pt.modify np fun q => { q with state := .EMBRYO, pid := k.nextpid }
      nextpid := k.nextpid + 1 }.setPc p (.kstack m np))
  | kstack {c p o np m} (hc : k.cpu c = some p) (hpc : k.pc p = .kstack m np) :
    Move k (.on c o) (k.setPc p (.fill m np))
  | discard {c p o np} (hc : k.cpu c = some p) (hmk : (k.pc p).makes = some np) (had : (k.pc p).adopted = false)
      (d : Pgdir) :
    Move k (.on c o) ((k.modify np fun q => { q with pgdir := d, state := .UNUSED }).setPc p .run)
  | fill {c p o np m} (hc : k.cpu c = some p) (hpc : k.pc p = .fill m np) (d : Pgdir) (us tk : BitVec 32)
      (htk : m = .fork ∧ tk = 1 ∨ m ≠ .fork ∧ tk = (k.pt np).tickets) :
    Move k (.on c o) ((k.modify np fun q =>
      { q with pgdir := d, sz := (k.pt p).sz, parent := some p, ustack := us, tickets := tk }).setPc p
        (.publish m np))
  | publish {c p np m} (hc : k.cpu c = some p) (hpc : k.pc p = .publish m np) (tk : BitVec 32) {pc : Pc}
      (hpc' : pc.makes = none)
      (htk : m = .fork ∧ tk = (k.pt np).tickets ∨ ∃ r, (k.pt np).parent = some r ∧ tk = (k.pt r).tickets) :
    Move k (.on c .publish)
      (((k.modify np fun q => { q with tickets := tk, state := .RUNNABLE }).setPc np .run).setPc p pc)
  | refs {c p o np} (hc : k.cpu c = some p) (hpc : k.pc p = .refs np) :
    Move k (.on c o) ((k.modify np fun q => { q with refs := (k.pt p).refs }).setPc p .run)
  | exit {c p o} (hc : k.cpu c = some p) (hpc : k.pc p = .run) (hi : p ≠ k.initproc) :
    Move k (.on c o) ({ k with pt := k.pt.exitTable p k.initproc }.idle c)
  | reap {c p o z} (hc : k.cpu c = some p) (hpc : (k.pc p).makes = none) (hpar : (k.pt z).parent = some p)
      (hz : (k.pt z).state = .ZOMBIE) :
    Move k (.on c o) ({ k with pt := k.pt.reap z }.setPc p .run)
  | giveUp {c p o} (hc : k.cpu c = some p) (hpc : (k.pc p).makes = none) : Move k (.on c o) (k.setPc p .run)
  | sleep {c p o} (hc : k.cpu c = some p) (hpc : (k.pc p).makes = none) (chan : Option Chan) {pc : Pc}
      (hmk : pc.makes = none) (hch : pc = .wait ∨ pc = .join → chan = some (.proc p))
      (hw : pc = .wait → ∀ z, (k.pt z).parent = some p → (k.pt z).state ≠ .ZOMBIE)
      (hj : pc = .join → ∀ z, (k.pt z).parent = some p → (k.pt z).pgdir = (k.pt p).pgdir →
        (k.pt z).state ≠ .ZOMBIE) (ho : pc = .join → o = .join) :
    Move k (.on c o) (k.sleepOn c p chan pc)
  | yield {c p o} (hc : k.cpu c = some p) (hs : (k.pc p).inSleep = false) :
    Move k (.on c o) ((k.modify p fun q => { q with state := .RUNNABLE }).idle c)
  | exec {c p o} (hc : k.cpu c = some p) (hpc : k.pc p = .run) (d : Pgdir) (sz : BitVec 32)
      (ho : o = .exec d sz ∨ d = (k.pt p).pgdir) :
    Move k (.on c o) (k.modify p fun q => { q with pgdir := d, sz := sz })
  | dispatch {c p draw} (hc : k.cpu c = none) (hr : (k.pt p).state = .RUNNABLE) (hw : k.wins p draw = true) :
    Move k (.dispatch c p draw) ({ k with
      pt := k.pt.modify p fun q => { q with state := .RUNNING }
      cpu := update k.cpu c (some p) }.resume p)
  | wakeup (chan : Option Chan) : Move k (.wakeup chan) { k with pt := k.pt.wakeup1 chan }
  | wakeupEntry (m : Mslot) (q : Slot) : Move k (.wakeupEntry m q) (k.wakeupEntry m q)
  | kill (pid : BitVec 32) : Move k (.kill pid) { k with pt := (k.pt.kill pid).1 }
  | changeTickets (pid tk : BitVec 32) :
    Move k (.changeTickets pid tk) { k with pt := k.pt.changeTickets pid tk }

section

variable {ncpu : Nat} {k k' : Kernel ncpu} {c : Fin ncpu} {p : Slot}

section

variable (hc : k.cpu c = some p) {o : Op}
include hc

theorem move_allocproc (hpc : k.pc p = .run) (m : Maker)
    (ho : o = .fork ∨ ∃ stack, o = .clone stack ∧ k.badStack p stack = false) :
    Move k (.on c o) (k.allocproc p m) := by
  unfold Kernel.allocproc
  split
  · exact .full hc
  next np hf =>
    exact .alloc hc hpc hf m ho

theorem move_exit (hpc : k.pc p = .run) (o : Op) (h : k.exit c p = some k') : Move k (.on c o) k' := by
  unfold Kernel.exit at h
  split at h
  · cases h
  next hi =>
    cases h
    exact .exit hc hpc hi

theorem move_wait (hpc : k.pc p = .run ∨ k.pc p = .wait) (o : Op) : Move k (.on c o) (k.wait c p) := by
  have hmk : (k.pc p).makes = none := by rcases hpc with h | h <;> rw [h] <;> rfl
  unfold Kernel.wait
  split
  next z hz =>
    exact .reap hc hmk (Ptable.zombieChild_some hz).1 (Ptable.zombieChild_some hz).2
  rename_i hz
  split
  · exact .giveUp hc hmk
  · exact .sleep hc hmk _ rfl (fun _ => rfl) (fun _ => Ptable.zombieChild_none hz) (by simp) (by simp)

theorem move_join (hpc : k.pc p = .run ∨ k.pc p = .join) : Move k (.on c .join) (k.join c p) := by
  have hmk : (k.pc p).makes = none := by rcases hpc with h | h <;> rw [h] <;> rfl
  unfold Kernel.join
  split
  next z hz =>
    exact .reap hc hmk (Ptable.zombieThread_some hz).1 (Ptable.zombieThread_some hz).2.2
  next hz =>
    exact .sleep hc hmk _ rfl (fun _ => rfl) (by simp) (fun _ => Ptable.zombieThread_none hz) fun _ => rfl

theorem move_op (h : k.op c p o = some k') : Move k (.on c o) k' := by
  cases o with
  | fork =>
    obtain ⟨hpc, rfl⟩ : k.pc p = .run ∧ _ := by simpa [Kernel.op] using h
    exact move_allocproc hc hpc _ (.inl rfl)
  | clone stack =>
    simp only [Kernel.op] at h
    split at h
    next hpc =>
      split at h
      · exact move_exit hc hpc _ h
      next hbad =>
        cases h
        exact move_allocproc hc hpc _ (.inr ⟨stack, rfl, Bool.eq_false_of_not_eq_true hbad⟩)
    · cases h
  | kalloc ok =>
    simp only [Kernel.op] at h
    split at h
    next m np hpc =>
      split at h <;> cases h
      · exact .kstack hc hpc
      · rw [k.modify_congr (g := fun q => { q with pgdir := (k.pt np).pgdir, state := .UNUSED }) rfl]
        exact .discard hc (by rw [hpc]; rfl) (by rw [hpc]; rfl) _
    · cases h
  | copyuvm d =>
    simp only [Kernel.op] at h
    split at h
    next np hpc =>
      split at h <;> cases h
      · exact .discard hc (by rw [hpc]; rfl) (by rw [hpc]; rfl) 0
      · exact .fill hc hpc d (k.pt np).ustack 1 (.inl ⟨rfl, rfl⟩)
    · cases h
  | share =>
    simp only [Kernel.op] at h
    split at h
    next stack np hpc =>
      cases h
      exact .fill hc hpc (k.pt p).pgdir stack (k.pt np).tickets (.inr ⟨nofun, rfl⟩)
    · cases h
  | publish =>
    simp only [Kernel.op] at h
    split at h
    next np hpc =>
      cases h
      exact .publish hc hpc (k.pt np).tickets rfl (.inl ⟨rfl, rfl⟩)
    next stack np hpc =>
      obtain ⟨r, hr, rfl⟩ := Option.map_eq_some_iff.1 h
      exact .publish hc hpc (k.pt r).tickets rfl (.inr ⟨r, hr, rfl⟩)
    · cases h
  | setRefs =>
    simp only [Kernel.op] at h
    split at h
    next np hpc =>
      cases h
      exact .refs hc hpc
    · cases h
  | exit =>
    simp only [Kernel.op] at h
    split at h
    next hpc =>
      exact move_exit hc hpc _ h
    · cases h
  | wait =>
    obtain ⟨hpc, rfl⟩ : (k.pc p = .run ∨ k.pc p = .wait) ∧ _ := by simpa [Kernel.op] using h
    exact move_wait hc hpc _
  | join =>
    obtain ⟨hpc, rfl⟩ : (k.pc p = .run ∨ k.pc p = .join) ∧ _ := by simpa [Kernel.op] using h
    exact move_join hc hpc
  | sleep chan =>
    obtain ⟨hpc, rfl⟩ : k.pc p = .run ∧ _ := by simpa [Kernel.op] using h
    exact .sleep hc (by rw [hpc]; rfl) chan rfl (by simp) (by simp) (by simp) (by simp)
  | yield =>
    simp only [Kernel.op] at h
    split at h
    · cases h
    next hs =>
      cases h
      exact .yield hc (by simpa using hs)
  | exec d sz =>
    obtain ⟨hpc, rfl⟩ : k.pc p = .run ∧ _ := by simpa [Kernel.op] using h
    exact .exec hc hpc d sz (.inl rfl)
  | growproc sz =>
    obtain ⟨hpc, rfl⟩ : k.pc p = .run ∧ _ := by simpa [Kernel.op] using h
    exact .exec hc hpc (k.pt p).pgdir sz (.inr rfl)

end

theorem move_of_step {a : Act ncpu} (h : k.step a = some k') : Move k a k' := by
  cases a with
  | on c o =>
    obtain ⟨p, hc, h⟩ := Option.bind_eq_some_iff.1 h
    exact move_op hc h
  | dispatch c p draw =>
    simp only [Kernel.step, Kernel.dispatch] at h
    split at h
    next hd =>
      cases h
      exact .dispatch hd.1 hd.2.1 hd.2.2
    · cases h
  | wakeup chan => cases h; exact .wakeup chan
  | wakeupEntry m q => cases h; exact .wakeupEntry m q
  | kill pid => cases h; exact .kill pid
  | changeTickets pid tk => cases h; exact .changeTickets pid tk

end

end Xv6
