import Xv6Threading.Lib.Machine
import Xv6Threading.Proc.Table

/-!
# Spin locks, `sleep` and `wakeup` (`spinlock.c:24-68`, `proc.c:539-596`)

Data `D` under a spin lock `lk`, and calls of one shape on it: take `lk`, change the data, `sleep` on one
channel for as long as the call is blocked, change the data again, `wakeup` the channel if the call signals,
and give `lk` back. `barrier_lock`, `acquiresleep` and `releasesleep` are such calls.

| here | there |
| --- | --- |
| `Spinlock`, `holding` | `struct spinlock`, `holding` (`spinlock.c:93`) |
| `acquire`, `release` | `acquire`, `release` with their panics; spinning is not being able to move |
| `sleepAcquire` .. `reacquire` | `sleep`, statement by statement (`proc.c:556-573`) |
| `wakeAcquire` .. `wakeRelease` | `wakeup` (`proc.c:593-595`); `wakeup1` is one step, under `ptable.lock` |
| `proc c` | `c->proc`, the process that executes on the CPU `c` |
| `dispatch`, `preempt` | the scheduler takes and leaves a process: `scheduler`, and `yield` with interrupts on |
| `rouse` | `kill` of a sleeper, or a `wakeup` that is not meant for it |

Whatever the data and the calls are, at most one process is between its acquire and its release of `lk`, neither
panic is reached (`Excl`), and a sleeper that is no longer blocked has a call under `lk` that has still to
execute its `wakeup` (`Wait`).
-/

namespace Xv6

open Function

/-- A spin lock without its name and call stack. -/
structure Spinlock (C : Type) where
  locked : Bool
  cpu : Option C
deriving DecidableEq

def Spinlock.holding {C : Type} [DecidableEq C] (lk : Spinlock C) (c : C) : Bool := lk.locked && lk.cpu = some c

/-- A family of calls `ι` on data `D` by processes `T`. -/
structure Monitor (ι T D : Type) where
  enter : ι → T → D → D
  blocked : ι → D → Bool
  leave : ι → T → D → D
  signals : ι → Bool

namespace Monitor

inductive Lock where
  | lk
  | ptable
deriving DecidableEq

def Lock.other : Lock → Lock
  | .lk => .ptable
  | .ptable => .lk

theorem Lock.eq_other {k l : Lock} (h : k ≠ l) : k = l.other := by
  cases k <;> cases l <;> first | rfl | exact absurd rfl h

inductive Panic where
  | acquire
  | release
deriving DecidableEq

/-- What the process executes next. -/
inductive Pc (ι : Type) where
  | out
  | entry (i : ι)
  | update (i : ι)
  | test (i : ι)
  | sleepAcquire (i : ι)
  | sleepRelease (i : ι)
  | sleepChan (i : ι)
  | sleepState (i : ι)
  | sched (i : ι)
  | asleep (i : ι)
  | tidy (i : ι)
  | sleepDone (i : ι)
  | reacquire (i : ι)
  | leave (i : ι)
  | wakeAcquire (i : ι)
  | wakeScan (i : ι)
  | wakeRelease (i : ι)
  | release (i : ι)
deriving DecidableEq

namespace Pc

variable {ι : Type} {n : Pc ι}

/-- It has acquired the lock and not released it. -/
def holds : Pc ι → Lock → Bool
  | .update _, .lk | .test _, .lk | .sleepAcquire _, .lk | .sleepRelease _, .lk | .leave _, .lk
  | .wakeAcquire _, .lk | .wakeScan _, .lk | .wakeRelease _, .lk | .release _, .lk => true
  | .sleepRelease _, .ptable | .sleepChan _, .ptable | .sleepState _, .ptable | .sched _, .ptable
  | .tidy _, .ptable | .sleepDone _, .ptable | .wakeScan _, .ptable | .wakeRelease _, .ptable => true
  | _, _ => false

/-- Interrupts are on. -/
def preemptible : Pc ι → Bool
  | .out | .entry _ | .reacquire _ => true
  | _ => false

/-- Its `chan` is the channel. -/
def onChan : Pc ι → Bool
  | .sleepState _ | .sched _ | .asleep _ | .tidy _ => true
  | _ => false

/-- It has executed `p->state = SLEEPING` and has not run since. -/
def slept : Pc ι → Bool
  | .sched _ | .asleep _ => true
  | _ => false

/-- The call was found blocked, and has not run again. -/
def awaits : Pc ι → Option ι
  | .sleepAcquire i | .sleepRelease i | .sleepChan i | .sleepState i | .sched i | .asleep i => some i
  | _ => none

/-- The call is made and its first change of the data is not. -/
def calling : Pc ι → Nat
  | .entry _ | .update _ => 1
  | _ => 0

/-- The first change is made and the call has not returned. -/
def inside : Pc ι → Nat
  | .out | .entry _ | .update _ => 0
  | _ => 1

theorem preemptible_of_free (h : ∀ l, n.holds l = false) (ha : ∀ i, n ≠ .asleep i) : n.preemptible = true := by
  have hlk := h .lk
  have hpt := h .ptable
  cases n <;> first | rfl | exact Bool.noConfusion hlk | exact Bool.noConfusion hpt | exact absurd rfl (ha _)

theorem of_preemptible (h : n.preemptible = true) :
    (∀ l, n.holds l = false) ∧ n.awaits = none ∧ n.slept = false ∧ ∀ i, n ≠ .asleep i ∧ n ≠ .leave i := by
  cases n <;> try cases h
  all_goals
    refine ⟨?_, rfl, rfl, ?_⟩
    · intro l
      cases l <;> rfl
    · intro i
      constructor <;> rintro ⟨⟩

end Pc

structure Sys (ι T C D : Type) where
  lock : Lock → Spinlock C
  data : D
  state : T → Procstate
  chan : T → Bool
  pc : T → Pc ι
  proc : C → Option T
  panic : Option (Panic × Lock)
  /-- History: the calls made, those that have changed the data, those that have returned. -/
  called : List T
  entered : List T
  returned : List T

inductive Act (ι T C : Type) where
  /-- The process on the CPU makes a call. -/
  | call (c : C) (i : ι)
  /-- The process on the CPU executes the next step of its call. -/
  | go (c : C)
  | dispatch (c : C) (p : T)
  | preempt (c : C)
  | rouse (p : T)

namespace Sys

variable {ι T C D : Type} [DecidableEq T] [DecidableEq C] (s : Sys ι T C D)

def setPc (p : T) (n : Pc ι) : Sys ι T C D := { s with pc := update s.pc p n }
def setState (p : T) (st : Procstate) : Sys ι T C D := { s with state := update s.state p st }
def setChan (p : T) (b : Bool) : Sys ι T C D := { s with chan := update s.chan p b }
def setLock (l : Lock) (lk : Spinlock C) : Sys ι T C D := { s with lock := update s.lock l lk }
def setProc (c : C) (p : Option T) : Sys ι T C D := { s with proc := update s.proc c p }

/-- `acquire` by `p` on `c`, which goes on at `n`. -/
def acquire (l : Lock) (c : C) (p : T) (n : Pc ι) : Option (Sys ι T C D) :=
  if (s.lock l).holding c then some { s with panic := some (.acquire, l) }
  else if (s.lock l).locked then none
  else some ((s.setLock l ⟨true, some c⟩).setPc p n)

def release (l : Lock) (c : C) (p : T) (n : Pc ι) : Option (Sys ι T C D) :=
  if (s.lock l).holding c then some ((s.setLock l ⟨false, none⟩).setPc p n)
  else some { s with panic := some (.release, l) }

/-- `wakeup1` (`proc.c:580-587`). -/
def wakeup1 : Sys ι T C D :=
  { s with state := fun q => if s.state q = .SLEEPING ∧ s.chan q = true then .RUNNABLE else s.state q }

def call (c : C) (i : ι) : Option (Sys ι T C D) :=
  match s.proc c with
  | none => none
  | some p =>
    match s.pc p with
    | .out => some ({ s with called := s.called ++ [p] }.setPc p (.entry i))
    | _ => none

def goAt (M : Monitor ι T D) (c : C) (p : T) : Pc ι → Option (Sys ι T C D)
  | .out | .asleep _ => none
  | .entry i => s.acquire .lk c p (.update i)
  | .update i =>
    some ({ s with data := M.enter i p s.data, entered := s.entered ++ [p] }.setPc p (.test i))
  | .test i => some (s.setPc p (if M.blocked i s.data then .sleepAcquire i else .leave i))
  | .sleepAcquire i => s.acquire .ptable c p (.sleepRelease i)
  | .sleepRelease i => s.release .lk c p (.sleepChan i)
  | .sleepChan i => some ((s.setChan p true).setPc p (.sleepState i))
  | .sleepState i => some ((s.setState p .SLEEPING).setPc p (.sched i))
  -- back in the scheduler of this CPU, which lets ptable.lock go
  | .sched i => (s.release .ptable c p (.asleep i)).map fun s => s.setProc c none
  | .tidy i => some ((s.setChan p false).setPc p (.sleepDone i))
  | .sleepDone i => s.release .ptable c p (.reacquire i)
  | .reacquire i => s.acquire .lk c p (.test i)
  | .leave i =>
    some ({ s with data := M.leave i p s.data }.setPc p (if M.signals i then .wakeAcquire i else .release i))
  | .wakeAcquire i => s.acquire .ptable c p (.wakeScan i)
  | .wakeScan i => some (s.wakeup1.setPc p (.wakeRelease i))
  | .wakeRelease i => s.release .ptable c p (.release i)
  | .release _ => (s.release .lk c p .out).map fun s =>
    if s.panic = none then { s with returned := s.returned ++ [p] } else s

def go (M : Monitor ι T D) (c : C) : Option (Sys ι T C D) := (s.proc c).bind fun p => s.goAt M c p (s.pc p)

/-- The scheduler of `c` takes `ptable.lock` and switches to `p`, which has it until the end of its `sleep`, or
lets it go at the end of `yield`. -/
def dispatch (c : C) (p : T) : Option (Sys ι T C D) :=
  if s.state p = .RUNNABLE ∧ s.proc c = none ∧ (s.lock .ptable).locked = false then
    match s.pc p with
    | .asleep i =>
      some ((((s.setProc c (some p)).setState p .RUNNING).setLock .ptable ⟨true, some c⟩).setPc p (.tidy i))
    | _ => some ((s.setProc c (some p)).setState p .RUNNING)
  else none

def preempt (c : C) : Option (Sys ι T C D) :=
  match s.proc c with
  | none => none
  | some p =>
    if (s.pc p).preemptible = true ∧ (s.lock .ptable).locked = false then
      some ((s.setProc c none).setState p .RUNNABLE)
    else none

def rouse (p : T) : Option (Sys ι T C D) :=
  if s.state p = .SLEEPING ∧ (s.lock .ptable).locked = false then some (s.setState p .RUNNABLE) else none

/-- After a panic the kernel does nothing. -/
def step (M : Monitor ι T D) (a : Act ι T C) : Option (Sys ι T C D) :=
  if s.panic = none then
    match a with
    | .call c i => s.call c i
    | .go c => s.go M c
    | .dispatch c p => s.dispatch c p
    | .preempt c => s.preempt c
    | .rouse p => s.rouse p
  else none

omit [DecidableEq T] [DecidableEq C] in
/-- Nobody is in a call. -/
def boot (d : D) : Sys ι T C D where
  lock _ := ⟨false, none⟩
  data := d
  state _ := .RUNNABLE
  chan _ := false
  pc _ := .out
  proc _ := none
  panic := none
  called := []
  entered := []
  returned := []

end Sys

/-- The calls of `M` on data that is `d` at first. -/
def machine {ι T D : Type} (C : Type) [DecidableEq T] [DecidableEq C] (M : Monitor ι T D) (d : D) :
    Machine (Sys ι T C D) (Act ι T C) where
  init s := s = .boot d
  step s a := s.step M a

end Monitor

end Xv6
