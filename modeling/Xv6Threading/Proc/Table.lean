import Xv6Threading.Lib.Fold
import Xv6Threading.Mutex.Table

/-!
# The process table (`proc.h:36-59`, `proc.c:16-19`)

| here | there |
| --- | --- |
| `Procstate`, `Proc` | `enum procstate`, `struct proc`; `kstack`, `tf`, `context`, `ofile`, `cwd` and `name` are read by nothing modelled here |
| `Slot` | a `struct proc *` into `ptable.proc` (a null pointer is `none`) |
| `Chan` | a `void *chan`: the address of a process (`wait`, `join`), of a mutex, or of anything else |
| `Pgdir` | a `pde_t *`: the physical page of a page directory, 0 for a null pointer |
| `wakeup1` | `wakeup1` (`proc.c:580`) |
| `freeSlot` | the scan of `allocproc` (`proc.c:93-95`) |
| `zombieChild`, `havekids` | what the scan of `wait` finds (`proc.c:296-315`) |
| `zombieThread` | what the scan of `join` finds (`proc.c:739-749`) |
| `reap` | the fields both clear in the slot they found (`proc.c:307-311`, `proc.c:758-762`) |
| `abandon` | the loop of `exit` that passes children to init (`proc.c:270-276`) |
| `exitTable` | the critical section of `exit` up to `sched()` (`proc.c:264-279`) |
| `kill`, `changeTickets` | `kill` (`proc.c:602`), `change_tickets` (`proc.c:343`) |
| `getTickets` | `get_tickets` (`proc.c:329`) |
-/

namespace Xv6

/-- `NPROC` (`param.h:1`). -/
def NPROC : Nat := 64

instance : NeZero NPROC := ⟨by decide⟩

abbrev Slot := Fin NPROC

inductive Procstate where
  | UNUSED
  | EMBRYO
  | SLEEPING
  | RUNNABLE
  | RUNNING
  | ZOMBIE
deriving DecidableEq, Repr

/-- It can run again: neither free, nor being made, nor dead. -/
def Procstate.live : Procstate → Bool
  | .SLEEPING | .RUNNABLE | .RUNNING => true
  | .UNUSED | .EMBRYO | .ZOMBIE => false

inductive Chan where
  | proc (p : Slot)
  | mutex (m : Mslot)
  | addr (a : Nat)
deriving DecidableEq, Repr

abbrev Pgdir := Nat

structure Proc where
  sz : BitVec 32
  pgdir : Pgdir
  state : Procstate
  pid : BitVec 32
  parent : Option Slot
  chan : Option Chan
  killed : Bool
  ustack : BitVec 32
  refs : BitVec 32
  tickets : BitVec 32
deriving DecidableEq, Repr

/-- A slot of the zeroed table. -/
def Proc.zero : Proc := ⟨0, 0, .UNUSED, 0, none, none, false, 0, 0, 0⟩

abbrev Ptable := Slot → Proc

namespace Ptable

/-- The table with entry `p` changed by `f`. -/
def modify (pt : Ptable) (p : Slot) (f : Proc → Proc) : Ptable := Function.update pt p (f (pt p))

def wakeup1 (pt : Ptable) (chan : Option Chan) : Ptable := fun q =>
  if (pt q).state = .SLEEPING ∧ (pt q).chan = chan then { pt q with state := .RUNNABLE } else pt q

def freeSlot (pt : Ptable) : Option Slot := Fin.find? fun p => (pt p).state = .UNUSED

def zombieChild (pt : Ptable) (cur : Slot) : Option Slot :=
  Fin.find? fun q => (pt q).parent = some cur ∧ (pt q).state = .ZOMBIE

def havekids (pt : Ptable) (cur : Slot) : Bool := (Fin.find? fun q => (pt q).parent = some cur).isSome

def zombieThread (pt : Ptable) (cur : Slot) : Option Slot :=
  Fin.find? fun q => (pt q).parent = some cur ∧ (pt q).pgdir = (pt cur).pgdir ∧ (pt q).state = .ZOMBIE

def reap (pt : Ptable) (q : Slot) : Ptable :=
  pt.modify q fun p => { p with pid := 0, parent := none, killed := false, state := .UNUSED }

/-- One iteration of the loop over the table. -/
def abandon (cur init : Slot) (pt : Ptable) (q : Slot) : Ptable :=
  if (pt q).parent = some cur then
    let pt := pt.modify q fun p => { p with parent := some init }
    if (pt q).state = .ZOMBIE then pt.wakeup1 (some (.proc init)) else pt
  else pt

def exitTable (pt : Ptable) (cur init : Slot) : Ptable :=
  let pt := pt.wakeup1 ((pt cur).parent.map .proc)
  let pt := Fin.foldl NPROC (abandon cur init) pt
  pt.modify cur fun p => { p with state := .ZOMBIE }

/-- `findPid` is the scan of `kill` and `change_tickets`. -/
def findPid (pt : Ptable) (pid : BitVec 32) : Option Slot := Fin.find? fun q => (pt q).pid = pid

def killed (p : Proc) : Proc :=
  { p with killed := true, state := if p.state = .SLEEPING then .RUNNABLE else p.state }

def kill (pt : Ptable) (pid : BitVec 32) : Ptable × Int :=
  match pt.findPid pid with
  | some q => (pt.modify q killed, 0)
  | none => (pt, -1)

def changeTickets (pt : Ptable) (pid tickets : BitVec 32) : Ptable :=
  match pt.findPid pid with
  | some q => pt.modify q fun p => { p with tickets := tickets }
  | none => pt

def getTickets (pt : Ptable) : BitVec 32 :=
  Fin.foldl NPROC (fun sum q => if (pt q).state = .RUNNABLE then sum + (pt q).tickets else sum) 0

/-! ## Entries after an update -/

@[simp] theorem modify_self (pt : Ptable) (p : Slot) (f : Proc → Proc) : pt.modify p f p = f (pt p) := by
  simp [modify]

theorem modify_apply (pt : Ptable) (p q : Slot) (f : Proc → Proc) :
    pt.modify p f q = if q = p then f (pt p) else pt q := by
  simp [modify, Function.update_apply]

theorem modify_ne (pt : Ptable) {p q : Slot} (f : Proc → Proc) (h : q ≠ p) : pt.modify p f q = pt q := by
  simp [modify, h]

variable {β : Type}

/-- What the change of an entry keeps, it keeps in the table. -/
theorem modify_keeps (g : Proc → β) (pt : Ptable) (p q : Slot) {f : Proc → Proc} (hf : ∀ x, g (f x) = g x) :
    g (pt.modify p f q) = g (pt q) := by
  rw [modify_apply]
  split
  next e =>
    rw [hf, e]
  · rfl

theorem kill_keeps (g : Proc → β) (pt : Ptable) (pid : BitVec 32) (q : Slot) (hg : ∀ x, g (killed x) = g x) :
    g ((pt.kill pid).1 q) = g (pt q) := by
  unfold kill
  split
  · exact modify_keeps g pt _ q hg
  · rfl

theorem changeTickets_keeps (g : Proc → β) (pt : Ptable) (pid tk : BitVec 32) (q : Slot)
    (hg : ∀ x, g { x with tickets := tk } = g x) : g (pt.changeTickets pid tk q) = g (pt q) := by
  have h : ∀ o : Option Slot, g ((match o with
      | some r => pt.modify r fun p => { p with tickets := tk }
      | none => pt) q) = g (pt q) := by
    intro o
    cases o with
    | some r => exact modify_keeps g pt r q hg
    | none => rfl
  exact h _

variable {pt : Ptable} {q : Slot}

theorem changeTickets_eq {pid tk : BitVec 32} (h : pt.findPid pid = some q) :
    pt.changeTickets pid tk = pt.modify q fun p => { p with tickets := tk } := by
  unfold changeTickets
  rw [h]

theorem freeSlot_some {p : Slot} (h : pt.freeSlot = some p) : (pt p).state = .UNUSED := by
  simpa using (Fin.find?_eq_some_iff.1 h).1

variable {cur : Slot}

theorem zombieChild_some (h : pt.zombieChild cur = some q) : (pt q).parent = some cur ∧ (pt q).state = .ZOMBIE := by
  simpa using (Fin.find?_eq_some_iff.1 h).1

theorem zombieChild_none (h : pt.zombieChild cur = none) (q : Slot)
    (hq : (pt q).parent = some cur) : (pt q).state ≠ .ZOMBIE := by
  have := Fin.find?_eq_none_iff.1 h q
  simp only [decide_eq_false_iff_not, not_and] at this
  exact this hq

theorem zombieThread_some (h : pt.zombieThread cur = some q) :
    (pt q).parent = some cur ∧ (pt q).pgdir = (pt cur).pgdir ∧ (pt q).state = .ZOMBIE := by
  simpa using (Fin.find?_eq_some_iff.1 h).1

theorem zombieThread_none (h : pt.zombieThread cur = none) (q : Slot)
    (hq : (pt q).parent = some cur) (hd : (pt q).pgdir = (pt cur).pgdir) : (pt q).state ≠ .ZOMBIE := by
  have := Fin.find?_eq_none_iff.1 h q
  simp only [decide_eq_false_iff_not, not_and] at this
  exact this hq hd

theorem wakeup1_eq (pt : Ptable) (chan : Option Chan) (q : Slot) : pt.wakeup1 chan q =
    { pt q with state := if (pt q).state = .SLEEPING ∧ (pt q).chan = chan then .RUNNABLE else (pt q).state } := by
  unfold wakeup1
  split <;> rfl

/-! ## `exit`'s loop, entry by entry -/

/-- Before the loop reaches entry `i` it has handed over the children below `i`, and woken init if
one of them was a zombie. -/
def abandoned (pt : Ptable) (cur init : Slot) (i : Nat) : Ptable := fun q =>
  { pt q with
    parent := if (pt q).parent = some cur ∧ q.val < i then some init else (pt q).parent
    state := if (pt q).state = .SLEEPING ∧ (pt q).chan = some (.proc init) ∧
        ∃ z : Slot, z.val < i ∧ (pt z).parent = some cur ∧ (pt z).state = .ZOMBIE then .RUNNABLE
      else (pt q).state }

theorem abandon_abandoned (pt : Ptable) (cur init : Slot) (i : Slot) :
    abandon cur init (pt.abandoned cur init i) i = pt.abandoned cur init (i + 1) := by
  have hlt : ∀ q : Slot, q.val < i.val + 1 ↔ q.val < i.val ∨ q = i := by
    intro q
    rw [Nat.lt_succ_iff_lt_or_eq, Fin.ext_iff]
  have hpar : (pt.abandoned cur init i i).parent = (pt i).parent := by simp [abandoned]
  have hzom : (pt.abandoned cur init i i).state = .ZOMBIE ↔ (pt i).state = .ZOMBIE := by
    simp only [abandoned]
    split <;> simp_all
  have hex : (∃ z : Slot, z.val < i.val + 1 ∧ (pt z).parent = some cur ∧ (pt z).state = .ZOMBIE) ↔
      (∃ z : Slot, z.val < i.val ∧ (pt z).parent = some cur ∧ (pt z).state = .ZOMBIE) ∨
        (pt i).parent = some cur ∧ (pt i).state = .ZOMBIE := by
    simp only [hlt, or_and_right, exists_or, exists_eq_left]
  unfold abandon
  ext q
  by_cases hp : (pt i).parent = some cur
  · have hq : ((pt q).parent = some cur ∧ q.val < i.val + 1) ↔
        (pt q).parent = some cur ∧ q.val < i.val ∨ q = i := by
      rw [hlt]
      grind
    rw [hpar, if_pos hp]
    simp only [modify_self, hzom]
    by_cases hz : (pt i).state = .ZOMBIE
    · rw [if_pos hz, wakeup1_eq]
      by_cases e : q = i
      · subst e
        simp [abandoned, hp, hz]
      simp only [modify_ne _ _ e]
      simp only [abandoned, hex, hq, hp, hz, e, or_false, and_self, or_true, and_true]
      by_cases hs : (pt q).state = .SLEEPING ∧ (pt q).chan = some (.proc init)
      · simp only [hs, true_and]
        split <;> simp_all
      · simp only [← and_assoc, hs, false_and]
        simp [hs]
    · rw [if_neg hz]
      by_cases e : q = i
      · subst e
        simp only [modify_self, abandoned, hex, hp, hz, and_false, or_false, true_and, Nat.lt_succ_self, if_true]
      · simp only [modify_ne _ _ e, abandoned, hex, hq, hz, e, and_false, or_false]
  · rw [hpar, if_neg hp]
    have hq : ((pt q).parent = some cur ∧ q.val < i.val + 1) ↔ (pt q).parent = some cur ∧ q.val < i.val := by
      rw [hlt]
      grind
    simp only [abandoned, hex, hq, hp, false_and, or_false]

theorem exitTable_eq (pt : Ptable) (cur init : Slot) : pt.exitTable cur init =
    ((pt.wakeup1 ((pt cur).parent.map .proc)).abandoned cur init NPROC).modify cur
      fun p => { p with state := .ZOMBIE } := by
  have h := Fin.foldl_inv (abandon cur init)
    (fun i t => t = (pt.wakeup1 ((pt cur).parent.map .proc)).abandoned cur init i)
    (pt.wakeup1 ((pt cur).parent.map .proc)) (by simp [abandoned, funext_iff])
    (by rintro i a rfl; exact abandon_abandoned ..)
  simp only [exitTable, h]

/-- `exit` passes the children to init. -/
theorem exitTable_parent (pt : Ptable) (cur init q : Slot) : (pt.exitTable cur init q).parent =
    if (pt q).parent = some cur then some init else (pt q).parent := by
  rw [exitTable_eq, modify_apply]
  by_cases e : q = cur
  · subst e; simp [abandoned, wakeup1_eq]
  · simp [e, abandoned, wakeup1_eq]

@[simp] theorem exitTable_self (pt : Ptable) (cur init : Slot) : (pt.exitTable cur init cur).state = .ZOMBIE := by
  rw [exitTable_eq, modify_self]

/-- Whom `exit` wakes: the parent if it sleeps on itself, and init if it gets a zombie. -/
theorem exitTable_state (pt : Ptable) (cur init : Slot) (h : q ≠ cur) : (pt.exitTable cur init q).state =
      if (pt q).state = .SLEEPING ∧ ((pt q).chan = (pt cur).parent.map .proc ∨ (pt q).chan = some (.proc init) ∧
          ∃ z, (pt z).parent = some cur ∧ (pt z).state = .ZOMBIE) then .RUNNABLE
      else (pt q).state := by
  have hz : ∀ z chan, (pt.wakeup1 chan z).state = .ZOMBIE ↔ (pt z).state = .ZOMBIE := by
    intro z chan
    rw [wakeup1_eq]
    split <;> simp_all
  rw [exitTable_eq, modify_ne _ _ h]
  simp only [abandoned, hz, Fin.is_lt, true_and]
  simp only [wakeup1_eq]
  by_cases hs : (pt q).state = .SLEEPING <;> by_cases hc : (pt q).chan = (pt cur).parent.map .proc <;>
    simp [hs, hc]

/-- Everything else stays. -/
theorem exitTable_frame (pt : Ptable) (cur init q : Slot) : pt.exitTable cur init q =
    { pt q with parent := (pt.exitTable cur init q).parent, state := (pt.exitTable cur init q).state } := by
  rw [exitTable_eq, modify_apply]
  split
  · subst q; simp [abandoned, wakeup1_eq]
  · simp [abandoned, wakeup1_eq]

end Ptable

end Xv6
