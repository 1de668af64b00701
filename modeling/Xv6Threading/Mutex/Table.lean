import Mathlib.Algebra.Order.Ring.Int
import Mathlib.Data.Fintype.Basic

/-!
# The mutex table (`proc.c:21-24`, `proc.c:776-836`)

| here | there |
| --- | --- |
| `Mutexstate`, `MutexStruct` | `enum mutexstate`, `struct mutex_struct` (`proc.h:61-66`); `LOCKED` is 0, so a slot of the zeroed table reads as a locked mutex with id 0 |
| `Mtable` | `mtable.mutex` and `nextmid` (`proc.c:21-29`) |
| `findLocked` | the scan of `mutex_init` (`proc.c:783`) |
| `findId` | the scan of `mutex_lock` and `mutex_unlock` (`proc.c:801`, `proc.c:826`) |
| `mutexInit` | the critical section of `mutex_init` (`proc.c:781-791`); `none` is its `-1` |

Both scans test the entry before the bound (`m->state != LOCKED && m < end`), so they read one
entry past the table; whatever it holds, they stop at `end` there and the caller returns `-1`.
-/

namespace Xv6

/-- `MAX_MUTEXES` (`param.h:15`). -/
def MAX_MUTEXES : Nat := 5

instance : NeZero MAX_MUTEXES := ⟨by decide⟩

inductive Mutexstate where
  | LOCKED
  | UNLOCKED
deriving DecidableEq, Repr

structure MutexStruct where
  id : BitVec 32
  state : Mutexstate
deriving DecidableEq, Repr

/-- A `struct mutex_struct *` into `mtable.mutex`. -/
abbrev Mslot := Fin MAX_MUTEXES

structure Mtable where
  mutex : Mslot → MutexStruct
  nextmid : BitVec 32

namespace Mtable

/-- `mtable` and `nextmid` as the kernel starts: zeroed storage, `int nextmid = 1`. -/
def boot : Mtable := ⟨fun _ => ⟨0, .LOCKED⟩, 1⟩

def findLocked (mt : Mtable) : Option Mslot := Fin.find? fun m => (mt.mutex m).state = .LOCKED

def findId (mt : Mtable) (id : BitVec 32) : Option Mslot := Fin.find? fun m => (mt.mutex m).id = id

def setState (mt : Mtable) (m : Mslot) (st : Mutexstate) : Mtable :=
  { mt with mutex := Function.update mt.mutex m { mt.mutex m with state := st } }

def mutexInit (mt : Mtable) : Option (Mtable × Mslot) :=
  match mt.findLocked with
  | none => none
  | some m =>
    some ({ mutex := Function.update mt.mutex m ⟨mt.nextmid, .UNLOCKED⟩, nextmid := mt.nextmid + 1 }, m)

section

variable (mt : Mtable) (m : Mslot) (st : Mutexstate)
include mt m st

@[simp] theorem setState_nextmid : (mt.setState m st).nextmid = mt.nextmid := rfl

@[simp] theorem setState_id (j : Mslot) : ((mt.setState m st).mutex j).id = (mt.mutex j).id := by
  by_cases h : j = m
  · subst h; simp [setState]
  · simp [setState, h]

@[simp] theorem setState_state_self : ((mt.setState m st).mutex m).state = st := by simp [setState]

end

theorem setState_state_ne (mt : Mtable) {m j : Mslot} (st : Mutexstate) (h : j ≠ m) :
    ((mt.setState m st).mutex j).state = (mt.mutex j).state := by simp [setState, h]

theorem findLocked_some {mt : Mtable} {m : Mslot} (h : mt.findLocked = some m) : (mt.mutex m).state = .LOCKED := by
  simpa using (Fin.find?_eq_some_iff.1 h).1

theorem findId_some {mt : Mtable} {id : BitVec 32} {m : Mslot} (h : mt.findId id = some m) :
    (mt.mutex m).id = id := by
  simpa using (Fin.find?_eq_some_iff.1 h).1

theorem findId_none {mt : Mtable} {id : BitVec 32} (h : mt.findId id = none) (m : Mslot) :
    (mt.mutex m).id ≠ id := by
  simpa using Fin.find?_eq_none_iff.1 h m

end Mtable

end Xv6
