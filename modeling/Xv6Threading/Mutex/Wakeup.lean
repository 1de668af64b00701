import Xv6Threading.Lib.Machine
import Xv6Threading.Proc.Table

/-!
# `mutex_lock` and `mutex_unlock` step by step: the lost wakeup (`proc.c:539-587`, `proc.c:795-836`)

The code of `mutex_lock`, `mutex_unlock` and of the `sleep` and `wakeup1` they call, cut at every
acquire and release of `mtable.lock` and `ptable.lock`, at both assignments of `sleep`, and at
every table entry `wakeup1` examines. `Pc` says which of these a process executes next.

| here | there |
| --- | --- |
| `lockEntry`, `lockScan`, `test` | `acquire(&mtable.lock)`, the scan and the `while` test of `mutex_lock` (`proc.c:798-813`) |
| `sleepAcquire`, `sleepRelease` | `acquire(&ptable.lock); release(lk)` (`proc.c:557-558`) |
| `sleepChan`, `sleepState` | `p->chan = chan; p->state = SLEEPING` (`proc.c:561-562`) |
| `sched`, `asleep` | `sched()`: the scheduler lets `ptable.lock` go; switched out |
| `tidy`, `sleepDone`, `reacquire` | `p->chan = 0`, `release(&ptable.lock)`, `acquire(lk)` (`proc.c:567-573`) |
| `unlockEntry`, `unlockScan`, `wakeup1 m i` | `mutex_unlock` (`proc.c:823-832`), with `wakeup1`'s loop at entry `i` |
| `leave` | `release(&mtable.lock)` and return |

`mutex_unlock` runs `wakeup1` with `mtable.lock` but without `ptable.lock`, which the comment on
`wakeup1` asks for. A waiter lets `mtable.lock` go before it is `SLEEPING` (`proc.c:558-562`), so
the scan can pass its entry in between (`lost_wakeup`). `no_lost_wakeup`: nothing else loses one.
-/

namespace Xv6.Mutex.Wakeup

open Function

inductive Pc where
  | idle
  | lockEntry (id : BitVec 32)
  | lockScan (id : BitVec 32)
  | test (m : Mslot)
  | sleepAcquire (m : Mslot)
  | sleepRelease (m : Mslot)
  | sleepChan (m : Mslot)
  | sleepState (m : Mslot)
  | sched (m : Mslot)
  | asleep (m : Mslot)
  | tidy (m : Mslot)
  | sleepDone (m : Mslot)
  | reacquire (m : Mslot)
  | unlockEntry (id : BitVec 32)
  | unlockScan (id : BitVec 32)
  | wakeup1 (m : Mslot) (i : Nat)
  | leave
deriving DecidableEq, Repr

/-- The process executing at this point holds `mtable.lock`. -/
def Pc.holdsMtable : Pc → Bool
  | .lockScan _ | .test _ | .sleepAcquire _ | .sleepRelease _ | .unlockScan _ | .wakeup1 _ _ | .leave => true
  | .idle | .lockEntry _ | .sleepChan _ | .sleepState _ | .sched _ | .asleep _ | .tidy _ | .sleepDone _
  | .reacquire _ | .unlockEntry _ => false

/-- It is executing, so its state is `RUNNING`. -/
def Pc.executing : Pc → Bool
  | .idle | .sched _ | .asleep _ => false
  | .lockEntry _ | .lockScan _ | .test _ | .sleepAcquire _ | .sleepRelease _ | .sleepChan _ | .sleepState _
  | .tidy _ | .sleepDone _ | .reacquire _ | .unlockEntry _ | .unlockScan _ | .wakeup1 _ _ | .leave => true

/-- Its `chan`. -/
def Pc.chan : Pc → Option Mslot
  | .sleepState m | .sched m | .asleep m | .tidy m => some m
  | .idle | .lockEntry _ | .lockScan _ | .test _ | .sleepAcquire _ | .sleepRelease _ | .sleepChan _
  | .sleepDone _ | .reacquire _ | .unlockEntry _ | .unlockScan _ | .wakeup1 _ _ | .leave => none

/-- It saw this mutex locked and has held `mtable.lock` since. -/
def Pc.sawLocked : Pc → Option Mslot
  | .sleepAcquire m | .sleepRelease m => some m
  | .idle | .lockEntry _ | .lockScan _ | .test _ | .sleepChan _ | .sleepState _ | .sched _ | .asleep _
  | .tidy _ | .sleepDone _ | .reacquire _ | .unlockEntry _ | .unlockScan _ | .wakeup1 _ _ | .leave => none

/-- It has released `mtable.lock` inside `sleep(m, &mtable.lock)` and is not `SLEEPING` yet. -/
def Pc.window : Pc → Option Mslot
  | .sleepChan m | .sleepState m => some m
  | .idle | .lockEntry _ | .lockScan _ | .test _ | .sleepAcquire _ | .sleepRelease _ | .sched _ | .asleep _
  | .tidy _ | .sleepDone _ | .reacquire _ | .unlockEntry _ | .unlockScan _ | .wakeup1 _ _ | .leave => none

/-- It has executed `p->state = SLEEPING` and has not run since. -/
def Pc.slept : Pc → Option Mslot
  | .sched m | .asleep m => some m
  | .idle | .lockEntry _ | .lockScan _ | .test _ | .sleepAcquire _ | .sleepRelease _ | .sleepChan _
  | .sleepState _ | .tidy _ | .sleepDone _ | .reacquire _ | .unlockEntry _ | .unlockScan _ | .wakeup1 _ _
  | .leave => none

/-- The mutex and the table entry of the `wakeup1` iteration about to run. -/
def Pc.examines : Pc → Option (Mslot × Slot)
  | .wakeup1 m i => if h : i < NPROC then some (m, ⟨i, h⟩) else none
  | .idle | .lockEntry _ | .lockScan _ | .test _ | .sleepAcquire _ | .sleepRelease _ | .sleepChan _
  | .sleepState _ | .sched _ | .asleep _ | .tidy _ | .sleepDone _ | .reacquire _ | .unlockEntry _
  | .unlockScan _ | .leave => none

structure Sys where
  mt : Mtable
  state : Slot → Procstate
  chan : Slot → Option Mslot
  pc : Slot → Pc
  mtableLock : Option Slot
  ptableLock : Option Slot

inductive Act where
  | lock (p : Slot) (id : BitVec 32)
  | unlock (p : Slot) (id : BitVec 32)
  /-- The next step of the call `p` is in. -/
  | go (p : Slot)
  /-- The scheduler takes `ptable.lock` and switches to `p`. -/
  | dispatch (p : Slot)
  /-- `kill` of a sleeper (`proc.c:611`), one critical section under `ptable.lock`. -/
  | kill (p : Slot)

namespace Sys

def setPc (s : Sys) (p : Slot) (c : Pc) : Sys := { s with pc := update s.pc p c }
def setState (s : Sys) (p : Slot) (st : Procstate) : Sys := { s with state := update s.state p st }
def setChan (s : Sys) (p : Slot) (c : Option Mslot) : Sys := { s with chan := update s.chan p c }
def setMutex (s : Sys) (m : Mslot) (st : Mutexstate) : Sys := { s with mt := s.mt.setState m st }

/-- One entry of `wakeup1(m)` (`proc.c:585-586`). -/
def examine (s : Sys) (m : Mslot) (q : Slot) : Sys :=
  if s.state q = .SLEEPING ∧ s.chan q = some m then s.setState q .RUNNABLE else s

def go (s : Sys) (p : Slot) : Option Sys :=
  match s.pc p with
  | .lockEntry id =>
    if s.mtableLock = none then some ({ s with mtableLock := some p }.setPc p (.lockScan id)) else none
  | .lockScan id =>
    match s.mt.findId id with
    | none => some (s.setPc p .leave)
    | some m => some (s.setPc p (.test m))
  | .test m =>
    if (s.mt.mutex m).state = .LOCKED then some (s.setPc p (.sleepAcquire m))
    else some ((s.setMutex m .LOCKED).setPc p .leave)
  | .sleepAcquire m =>
    if s.ptableLock = none then some ({ s with ptableLock := some p }.setPc p (.sleepRelease m)) else none
  | .sleepRelease m => some ({ s with mtableLock := none }.setPc p (.sleepChan m))
  | .sleepChan m => some ((s.setChan p (some m)).setPc p (.sleepState m))
  | .sleepState m => some ((s.setState p .SLEEPING).setPc p (.sched m))
  | .sched m => some ({ s with ptableLock := none }.setPc p (.asleep m))
  | .tidy m => some ((s.setChan p none).setPc p (.sleepDone m))
  | .sleepDone m => some ({ s with ptableLock := none }.setPc p (.reacquire m))
  | .reacquire m =>
    if s.mtableLock = none then some ({ s with mtableLock := some p }.setPc p (.test m)) else none
  | .unlockEntry id =>
    if s.mtableLock = none then some ({ s with mtableLock := some p }.setPc p (.unlockScan id)) else none
  | .unlockScan id =>
    match s.mt.findId id with
    | none => some (s.setPc p .leave)
    | some m =>
      if (s.mt.mutex m).state = .LOCKED then some ((s.setMutex m .UNLOCKED).setPc p (.wakeup1 m 0))
      else some (s.setPc p .leave)
  | .wakeup1 m i =>
    if h : i < NPROC then some ((s.examine m ⟨i, h⟩).setPc p (.wakeup1 m (i + 1)))
    else some (s.setPc p .leave)
  | .leave => some ({ s with mtableLock := none }.setPc p .idle)
  | .idle | .asleep _ => none

def step (s : Sys) : Act → Option Sys
  | .lock p id => if s.pc p = .idle ∧ s.state p = .RUNNING then some (s.setPc p (.lockEntry id)) else none
  | .unlock p id => if s.pc p = .idle ∧ s.state p = .RUNNING then some (s.setPc p (.unlockEntry id)) else none
  | .go p => s.go p
  | .dispatch p =>
    match s.pc p with
    | .asleep m =>
      if s.state p = .RUNNABLE ∧ s.ptableLock = none then
        some (({ s with ptableLock := some p }.setState p .RUNNING).setPc p (.tidy m))
      else none
    | _ => none
  | .kill p =>
    if s.state p = .SLEEPING ∧ s.ptableLock = none then some (s.setState p .RUNNABLE) else none

end Sys

/-- Any table, nobody inside a call, nobody asleep on a mutex. -/
def machine : Machine Sys Act where
  init s := (∀ p, s.pc p = .idle ∧ s.chan p = none) ∧ s.mtableLock = none ∧ s.ptableLock = none
  step := Sys.step

/-- No entry is examined by `mutex_unlock`'s `wakeup1` while its process is in the window. -/
def ScanOutsideWindow (s : Sys) : Act → Prop
  | .go u => ∀ x ∈ (s.pc u).examines, (s.pc x.2).window ≠ some x.1
  | .lock _ _ | .unlock _ _ | .dispatch _ | .kill _ => True

instance (s : Sys) : (a : Act) → Decidable (ScanOutsideWindow s a)
  | .go u => inferInstanceAs (Decidable (∀ x ∈ (s.pc u).examines, (s.pc x.2).window ≠ some x.1))
  | .lock _ _ | .unlock _ _ | .dispatch _ | .kill _ => inferInstanceAs (Decidable True)

/-- No lost wakeup: an unlocked mutex nobody is unlocking has no sleeper. -/
def NoLostWakeup (s : Sys) : Prop :=
  ∀ m, (∀ u i, s.pc u ≠ .wakeup1 m i) → (s.mt.mutex m).state = .UNLOCKED →
    ∀ p, ¬ (s.state p = .SLEEPING ∧ s.chan p = some m)

/-! ## The invariant -/

@[simp] theorem setPc_pc_self (s : Sys) (p : Slot) (c : Pc) : (s.setPc p c).pc p = c := by simp [Sys.setPc]

/-- `p` has committed to sleeping on `m` and has not been woken. -/
def Dozing (s : Sys) (m : Mslot) (p : Slot) : Prop :=
  (s.pc p).window = some m ∨ (s.pc p).slept = some m ∧ s.state p = .SLEEPING

/-- Sleeping on `m` is safe: `m` is locked, or a scan has the entry ahead. -/
def Covered (s : Sys) (m : Mslot) (p : Slot) : Prop :=
  (s.mt.mutex m).state = .LOCKED ∨ ∃ u i, s.pc u = .wakeup1 m i ∧ i ≤ p.val

/-- What holds of one process at every point of its calls. -/
structure Local (s : Sys) (p : Slot) : Prop where
  mtable : (s.pc p).holdsMtable = true → s.mtableLock = some p
  running : (s.pc p).executing = true → s.state p = .RUNNING
  chan : s.chan p = (s.pc p).chan
  locked : ∀ m, (s.pc p).sawLocked = some m → (s.mt.mutex m).state = .LOCKED

structure Inv (s : Sys) : Prop where
  at_ : ∀ p, Local s p
  covered : ∀ p m, Dozing s m p → Covered s m p

variable {s : Sys}

theorem inv_init (h : machine.init s) : Inv s := by
  have hpc : ∀ p, s.pc p = .idle := fun p => (h.1 p).1
  refine ⟨fun p => ⟨?_, ?_, ?_, ?_⟩, ?_⟩
  · simp [hpc, Pc.holdsMtable]
  · simp [hpc, Pc.executing]
  · simp [hpc, Pc.chan, (h.1 p).2]
  · simp [hpc, Pc.sawLocked]
  · intro p m hd
    simp [Dozing, hpc, Pc.window, Pc.slept] at hd

theorem slept_of_chan : ∀ {c : Pc} {m : Mslot}, c.chan = some m → c.executing = false → c.slept = some m := by
  intro c m h1 h2
  cases c <;> simp_all [Pc.chan, Pc.executing, Pc.slept]

theorem noLostWakeup_of_inv (h : Inv s) : NoLostWakeup s := by
  rintro m hu hst p ⟨hp, hc⟩
  have hex : (s.pc p).executing = false := by
    by_contra he
    simp [(h.at_ p).running (by simpa using he)] at hp
  have hsl := slept_of_chan ((h.at_ p).chan ▸ hc) hex
  rcases h.covered p m (.inr ⟨hsl, hp⟩) with hl | ⟨u, i, hui, -⟩
  · simp [hl] at hst
  · exact hu u i hui

variable {p : Slot}

/-- Only the holder of `mtable.lock` is inside a section under it. -/
theorem not_holdsMtable (h : Inv s) {q : Slot} (hp : (s.pc p).holdsMtable = true) (hq : q ≠ p) :
    (s.pc q).holdsMtable = false := by
  by_contra hn
  have h1 := (h.at_ p).mtable hp
  have h2 := (h.at_ q).mtable (by simpa using hn)
  rw [h1] at h2
  exact hq (Option.some.inj h2).symm

variable {s' : Sys}

/-- A step of `p` that leaves the other processes alone, unlocks nothing and ends no scan early.
If it commits `p` to sleeping on a mutex, that mutex is locked. -/
theorem inv_of_local (h : Inv s) (hpc : ∀ q, q ≠ p → s'.pc q = s.pc q)
    (hst : ∀ q, q ≠ p → s'.state q = s.state q) (hch : ∀ q, q ≠ p → s'.chan q = s.chan q)
    (hmt : ∀ m, (s.mt.mutex m).state = .LOCKED → (s'.mt.mutex m).state = .LOCKED)
    (hml : ∀ q, q ≠ p → (s.pc q).holdsMtable = true → s'.mtableLock = some q)
    (hscan : ∀ m i, s.pc p = .wakeup1 m i → NPROC ≤ i) (hp : Local s' p)
    (hd : ∀ m, Dozing s' m p → Dozing s m p ∨ (s.mt.mutex m).state = .LOCKED) : Inv s' := by
  have hcov : ∀ m q, Covered s m q → Covered s' m q := by
    rintro m q (hl | ⟨u, i, hu, hi⟩)
    · exact .inl (hmt m hl)
    refine .inr ⟨u, i, ?_, hi⟩
    have hne : u ≠ p := by
      rintro rfl
      have := hscan m i hu
      have := q.isLt
      omega
    rw [hpc u hne, hu]
  constructor
  · intro q
    by_cases e : q = p
    · exact e ▸ hp
    have hq := h.at_ q
    refine ⟨?_, ?_, ?_, ?_⟩
    · rw [hpc q e]; exact hml q e
    · rw [hpc q e, hst q e]; exact hq.running
    · rw [hpc q e, hch q e]; exact hq.chan
    · rw [hpc q e]; exact fun m hm => hmt m (hq.locked m hm)
  intro q m hq
  by_cases e : q = p
  · subst e
    rcases hd m hq with hq | hl
    · exact hcov m q (h.covered q m hq)
    · exact .inl (hmt m hl)
  · simp only [Dozing, hpc q e, hst q e] at hq
    exact hcov m q (h.covered q m hq)

/-- Unlocking a locked mutex: everybody committed to sleeping on it is ahead of the scan. -/
theorem inv_unlock (h : Inv s) {id : BitVec 32} (hpc : s.pc p = .unlockScan id) (m : Mslot) :
    Inv ((s.setMutex m .UNLOCKED).setPc p (.wakeup1 m 0)) := by
  have hm : (s.pc p).holdsMtable = true := by rw [hpc]; rfl
  have hpc' : ∀ q, q ≠ p → ((s.setMutex m .UNLOCKED).setPc p (.wakeup1 m 0)).pc q = s.pc q := by
    intro q e; simp [Sys.setPc, Sys.setMutex, e]
  have hpcp : ((s.setMutex m .UNLOCKED).setPc p (.wakeup1 m 0)).pc p = .wakeup1 m 0 := setPc_pc_self _ _ _
  constructor
  · intro q
    have hq := h.at_ q
    by_cases e : q = p
    · subst e
      refine ⟨fun _ => hq.mtable hm, fun _ => hq.running (by rw [hpc]; rfl), ?_, ?_⟩
      · rw [hpcp]; exact hq.chan.trans (by rw [hpc]; rfl)
      · rw [hpcp]; simp [Pc.sawLocked]
    have hnm := not_holdsMtable h hm e
    refine ⟨?_, ?_, ?_, ?_⟩
    · rw [hpc' q e, hnm]; simp
    · rw [hpc' q e]; exact hq.running
    · rw [hpc' q e]; exact hq.chan
    · rw [hpc' q e]
      intro m' hm'
      cases hq' : s.pc q <;> simp_all [Pc.sawLocked, Pc.holdsMtable]
  intro q m' hd
  have e : q ≠ p := by
    rintro rfl
    simp [Dozing, Pc.window, Pc.slept] at hd
  simp only [Dozing, hpc' q e] at hd
  by_cases em : m' = m
  · exact .inr ⟨p, 0, em ▸ hpcp, Nat.zero_le _⟩
  rcases h.covered q m' hd with hl | ⟨u, i, hu, hi⟩
  · exact .inl (by simpa [Sys.setPc, Sys.setMutex, Mtable.setState_state_ne _ _ em] using hl)
  exfalso
  have hup : u ≠ p := by rintro rfl; simp [hpc] at hu
  have := not_holdsMtable h hm hup
  simp [hu, Pc.holdsMtable] at this

theorem examine_state (s : Sys) (m : Mslot) (q r : Slot) : (s.examine m q).state r =
    if r = q ∧ s.state r = .SLEEPING ∧ s.chan r = some m then .RUNNABLE else s.state r := by
  unfold Sys.examine
  by_cases e : r = q
  · subst e
    by_cases hs : s.state r = .SLEEPING ∧ s.chan r = some m
    · simp [Sys.setState, hs]
    · simp [hs]
  · split <;> simp [Sys.setState, e]

/-- `wakeup1` writes nothing but states. -/
theorem examine_frame (s : Sys) (m : Mslot) (q : Slot) : (s.examine m q).pc = s.pc ∧
    (s.examine m q).chan = s.chan ∧ (s.examine m q).mt = s.mt ∧
    (s.examine m q).mtableLock = s.mtableLock := by
  unfold Sys.examine
  split <;> exact ⟨rfl, rfl, rfl, rfl⟩

theorem chan_of_slept : ∀ {c : Pc} {m : Mslot}, c.slept = some m → c.chan = some m := by
  intro c m h
  cases c <;> simp_all [Pc.chan, Pc.slept]

section

variable (h : Inv s) {m : Mslot}
include h

/-- One entry of the scan, examined outside the window: its process is awake afterwards, so the
scan may move past it. -/
theorem inv_examine {i : Nat} (hpc : s.pc p = .wakeup1 m i) (hi : i < NPROC) (hw : (s.pc ⟨i, hi⟩).window ≠ some m) :
    Inv ((s.examine m ⟨i, hi⟩).setPc p (.wakeup1 m (i + 1))) := by
  obtain ⟨fpc, fchan, fmt, fml⟩ := examine_frame s m ⟨i, hi⟩
  have hm : (s.pc p).holdsMtable = true := by rw [hpc]; rfl
  have hpc' : ∀ q, q ≠ p → ((s.examine m ⟨i, hi⟩).setPc p (.wakeup1 m (i + 1))).pc q = s.pc q := by
    intro q e; simp [Sys.setPc, fpc, e]
  have hpcp : ((s.examine m ⟨i, hi⟩).setPc p (.wakeup1 m (i + 1))).pc p = .wakeup1 m (i + 1) :=
    setPc_pc_self _ _ _
  have hrun : ∀ q, s.state q = .RUNNING →
      ((s.examine m ⟨i, hi⟩).setPc p (.wakeup1 m (i + 1))).state q = .RUNNING := by
    intro q hq; simp [Sys.setPc, examine_state, hq]
  constructor
  · intro q
    have hq := h.at_ q
    by_cases e : q = p
    · subst e
      refine ⟨fun _ => fml.trans (hq.mtable hm), fun _ => hrun q (hq.running (by rw [hpc]; rfl)), ?_, ?_⟩
      · rw [hpcp]; exact (congrFun fchan q).trans (hq.chan.trans (by rw [hpc]; rfl))
      · rw [hpcp]; simp [Pc.sawLocked]
    refine ⟨?_, ?_, ?_, ?_⟩
    · rw [hpc' q e, not_holdsMtable h hm e]; simp
    · rw [hpc' q e]; exact fun hx => hrun q (hq.running hx)
    · rw [hpc' q e]; exact (congrFun fchan q).trans hq.chan
    · rw [hpc' q e]; exact fun m' hm' => by simpa [Sys.setPc, fmt] using hq.locked m' hm'
  intro q m' hd
  have e : q ≠ p := by
    rintro rfl
    simp [Dozing, Pc.window, Pc.slept] at hd
  simp only [Dozing, hpc' q e] at hd
  simp only [Sys.setPc, examine_state] at hd
  have hd' : Dozing s m' q := by
    rcases hd with hd | ⟨h1, h2⟩
    · exact .inl hd
    · split at h2
      · cases h2
      · exact .inr ⟨h1, h2⟩
  rcases h.covered q m' hd' with hl | ⟨u, j, hu, hj⟩
  · exact .inl (by simpa [Sys.setPc, fmt] using hl)
  -- the only scan there is is this one
  obtain rfl : u = p := by
    by_contra hup
    have := not_holdsMtable h hm hup
    simp [hu, Pc.holdsMtable] at this
  rw [hpc] at hu
  cases hu
  refine .inr ⟨u, i + 1, hpcp, ?_⟩
  by_contra hlt
  obtain rfl : q = ⟨i, hi⟩ := Fin.ext (by simp; omega)
  -- the entry just examined: not in the window, so it was found asleep and woken
  rcases hd with hd | ⟨h1, h2⟩
  · exact hw hd
  have hc : s.chan ⟨i, hi⟩ = some m := (h.at_ _).chan.trans (chan_of_slept h1)
  simp only [hc, and_true, true_and] at h2
  split at h2
  · cases h2
  · contradiction

/-! ### The steps -/

/-- A step that only moves `p` from one point to another, with what it does to the two locks. -/
theorem inv_setPc (c : Pc) (ml pl : Option Slot) (hml : ∀ q, q ≠ p → (s.pc q).holdsMtable = true → ml = some q)
    (hscan : ∀ m i, s.pc p = .wakeup1 m i → NPROC ≤ i)
    (h1 : c.holdsMtable = true → ml = some p) (h2 : c.executing = true → s.state p = .RUNNING)
    (h3 : s.chan p = c.chan) (h4 : ∀ m, c.sawLocked = some m → (s.mt.mutex m).state = .LOCKED)
    (h5 : ∀ m, c.window = some m → (s.mt.mutex m).state = .LOCKED)
    (h6 : ∀ m, c.slept = some m → (s.pc p).slept = some m) :
    Inv ({ s with mtableLock := ml, ptableLock := pl }.setPc p c) := by
  have hpcp : ({ s with mtableLock := ml, ptableLock := pl }.setPc p c).pc p = c := setPc_pc_self _ _ _
  refine inv_of_local (p := p) h ?_ (fun _ _ => rfl) (fun _ _ => rfl) (fun _ hm => hm) hml hscan ⟨?_, ?_, ?_,
    ?_⟩ ?_
  · intro q e
    simp [Sys.setPc, e]
  · rw [hpcp]; exact h1
  · rw [hpcp]; exact h2
  · rw [hpcp]; exact h3
  · rw [hpcp]; exact h4
  · intro m hd
    simp only [Dozing, hpcp] at hd
    rcases hd with hd | ⟨hd, hst⟩
    · exact .inr (h5 m hd)
    · exact .inl (.inr ⟨h6 m hd, hst⟩)

/-- The same, to a point from which `p` neither sleeps nor is about to. -/
theorem inv_advance (c : Pc) (ml pl : Option Slot) (hc : c.sawLocked = none ∧ c.window = none ∧ c.slept = none)
    (hml : ∀ q, q ≠ p → (s.pc q).holdsMtable = true → ml = some q)
    (hscan : ∀ m i, s.pc p = .wakeup1 m i → NPROC ≤ i)
    (h1 : c.holdsMtable = true → ml = some p) (h2 : c.executing = true → s.state p = .RUNNING)
    (h3 : s.chan p = c.chan) : Inv ({ s with mtableLock := ml, ptableLock := pl }.setPc p c) :=
  inv_setPc h c ml pl hml hscan h1 h2 h3 (by simp [hc]) (by simp [hc]) (by simp [hc])

/-- A step of `p` outside `mtable.lock` that writes its own `state` or `chan`. It was in the window already
if it is committed to sleeping afterwards. -/
theorem inv_own (c : Pc) (hpc : s'.pc = update s.pc p c)
    (hmt : s'.mt = s.mt) (hml : s'.mtableLock = s.mtableLock) (hst : ∀ q, q ≠ p → s'.state q = s.state q)
    (hch : ∀ q, q ≠ p → s'.chan q = s.chan q) (hscan : ∀ m i, s.pc p ≠ .wakeup1 m i)
    (h1 : c.holdsMtable = false) (h2 : c.executing = true → s'.state p = .RUNNING) (h3 : s'.chan p = c.chan)
    (h4 : c.sawLocked = none) (h5 : ∀ m, c.window = some m ∨ c.slept = some m → (s.pc p).window = some m) :
    Inv s' := by
  have hpcp : s'.pc p = c := by rw [hpc, update_self]
  refine inv_of_local (p := p) h ?_ hst hch (fun m hl => by rwa [hmt]) ?_ (fun m i e => absurd e
    (hscan m i)) ⟨?_, ?_, ?_, ?_⟩ ?_
  · intro q e
    rw [hpc, update_of_ne e]
  · intro q _ hq
    rw [hml]
    exact (h.at_ q).mtable hq
  · simp [hpcp, h1]
  · rwa [hpcp]
  · rwa [hpcp]
  · simp [hpcp, h4]
  · intro m hd
    rw [Dozing, hpcp] at hd
    exact .inl (.inl (h5 m (hd.imp_right And.left)))

/-- `mutex_lock` takes the mutex. -/
theorem inv_take (hpc : s.pc p = .test m) : Inv ((s.setMutex m .LOCKED).setPc p .leave) := by
  have hp := h.at_ p
  refine inv_of_local (p := p) h ?_ (fun _ _ => rfl) (fun _ _ => rfl) ?_ (fun q _ => (h.at_ q).mtable)
    (by simp [hpc]) ⟨?_, ?_, ?_, ?_⟩ ?_
  · intro q e
    simp [Sys.setPc, Sys.setMutex, e]
  · intro m' hl
    by_cases em : m' = m
    · subst em; simp [Sys.setPc, Sys.setMutex]
    · simpa [Sys.setPc, Sys.setMutex, Mtable.setState_state_ne _ _ em] using hl
  · exact fun _ => hp.mtable (by rw [hpc]; rfl)
  · exact fun _ => hp.running (by rw [hpc]; rfl)
  · rw [setPc_pc_self]
    exact hp.chan.trans (by rw [hpc]; rfl)
  · simp [Sys.setPc, Pc.sawLocked]
  · simp [Dozing, Pc.window, Pc.slept, Sys.setPc]

theorem inv_go (hg : ScanOutsideWindow s (.go p)) (hs : s.go p = some s') : Inv s' := by
  have keep : ∀ q, q ≠ p → (s.pc q).holdsMtable = true → s.mtableLock = some q :=
    fun q _ => (h.at_ q).mtable
  have acquired : s.mtableLock = none → ∀ q, q ≠ p → (s.pc q).holdsMtable = true → some p = some q :=
    fun hfree q _ hq => by have := (h.at_ q).mtable hq; simp [hfree] at this
  have released : (s.pc p).holdsMtable = true → ∀ q, q ≠ p → (s.pc q).holdsMtable = true → none = some q :=
    fun hp q e hq => by simp [not_holdsMtable h hp e] at hq
  have hml := (h.at_ p).mtable
  have hrun := (h.at_ p).running
  have hch := (h.at_ p).chan
  have hlk := (h.at_ p).locked
  cases hpc : s.pc p with
  | idle => simp [Sys.go, hpc] at hs
  | asleep m => simp [Sys.go, hpc] at hs
  | lockEntry id =>
    rw [hpc] at hrun hch
    simp only [Sys.go, hpc] at hs
    split at hs
    next hfree =>
      cases hs
      exact inv_advance h (.lockScan id) _ _ ⟨rfl, rfl, rfl⟩ (acquired hfree) (by simp [hpc]) (fun _ => rfl) hrun hch
    · cases hs
  | lockScan id =>
    rw [hpc] at hml hrun hch
    simp only [Sys.go, hpc] at hs
    split at hs
    · cases hs
      exact inv_advance h .leave _ _ ⟨rfl, rfl, rfl⟩ keep (by simp [hpc]) hml hrun hch
    next m _ =>
      cases hs
      exact inv_advance h (.test m) _ _ ⟨rfl, rfl, rfl⟩ keep (by simp [hpc]) hml hrun hch
  | test m =>
    rw [hpc] at hml hrun hch
    simp only [Sys.go, hpc] at hs
    split at hs
    next hl =>
      cases hs
      refine inv_setPc h (.sleepAcquire m) _ _ keep (by simp [hpc]) hml hrun hch
        ?_ (by simp [Pc.window]) (by simp [Pc.slept])
      rintro m' ⟨⟩
      exact hl
    · cases hs
      exact inv_take h hpc
  | sleepAcquire m =>
    rw [hpc] at hml hrun hch hlk
    simp only [Sys.go, hpc] at hs
    split at hs
    · cases hs
      exact inv_setPc h (.sleepRelease m) _ _ keep (by simp [hpc]) hml hrun hch hlk
        (by simp [Pc.window]) (by simp [Pc.slept])
    · cases hs
  | sleepRelease m =>
    have hrel := released (by rw [hpc]; rfl)
    rw [hpc] at hrun hch hlk
    simp only [Sys.go, hpc, Option.some.injEq] at hs
    subst hs
    exact inv_setPc h (.sleepChan m) _ _ hrel (by simp [hpc]) (by simp [Pc.holdsMtable]) hrun hch
      (by simp [Pc.sawLocked]) hlk (by simp [Pc.slept])
  | sleepChan m =>
    rw [hpc] at hrun
    simp only [Sys.go, hpc, Option.some.injEq] at hs
    subst hs
    exact inv_own h (.sleepState m) rfl rfl rfl (fun _ _ => rfl) (fun q e => update_of_ne e _ _)
      (by simp [hpc]) rfl hrun (update_self ..) rfl (by simp [hpc, Pc.window, Pc.slept])
  | sleepState m =>
    rw [hpc] at hch
    simp only [Sys.go, hpc, Option.some.injEq] at hs
    subst hs
    exact inv_own h (.sched m) rfl rfl rfl (fun q e => update_of_ne e _ _) (fun _ _ => rfl)
      (by simp [hpc]) rfl (by simp [Pc.executing]) hch rfl (by simp [hpc, Pc.window, Pc.slept])
  | sched m =>
    rw [hpc] at hch
    simp only [Sys.go, hpc, Option.some.injEq] at hs
    subst hs
    exact inv_setPc h (.asleep m) _ _ keep (by simp [hpc]) (by simp [Pc.holdsMtable]) (by simp [Pc.executing]) hch
      (by simp [Pc.sawLocked]) (by simp [Pc.window]) (by simp [Pc.slept, hpc])
  | tidy m =>
    rw [hpc] at hrun
    simp only [Sys.go, hpc, Option.some.injEq] at hs
    subst hs
    exact inv_own h (.sleepDone m) rfl rfl rfl (fun _ _ => rfl) (fun q e => update_of_ne e _ _)
      (by simp [hpc]) rfl hrun (update_self ..) rfl (by simp [Pc.window, Pc.slept])
  | sleepDone m =>
    rw [hpc] at hrun hch
    simp only [Sys.go, hpc, Option.some.injEq] at hs
    subst hs
    exact inv_advance h (.reacquire m) _ _ ⟨rfl, rfl, rfl⟩ keep (by simp [hpc]) (by simp [Pc.holdsMtable]) hrun hch
  | reacquire m =>
    rw [hpc] at hrun hch
    simp only [Sys.go, hpc] at hs
    split at hs
    next hfree =>
      cases hs
      exact inv_advance h (.test m) _ _ ⟨rfl, rfl, rfl⟩ (acquired hfree) (by simp [hpc]) (fun _ => rfl) hrun hch
    · cases hs
  | unlockEntry id =>
    rw [hpc] at hrun hch
    simp only [Sys.go, hpc] at hs
    split at hs
    next hfree =>
      cases hs
      exact inv_advance h (.unlockScan id) _ _ ⟨rfl, rfl, rfl⟩ (acquired hfree) (by simp [hpc]) (fun _ => rfl) hrun hch
    · cases hs
  | unlockScan id =>
    rw [hpc] at hml hrun hch
    have hleave : Inv (s.setPc p .leave) :=
      inv_advance h .leave _ _ ⟨rfl, rfl, rfl⟩ keep (by simp [hpc]) hml hrun hch
    simp only [Sys.go, hpc] at hs
    split at hs
    · cases hs; exact hleave
    · split at hs
      · cases hs; exact inv_unlock h hpc _
      · cases hs; exact hleave
  | wakeup1 m i =>
    simp only [Sys.go, hpc] at hs
    split at hs
    next hi =>
      cases hs
      exact inv_examine h hpc hi (hg (m, ⟨i, hi⟩) (by simp [hpc, Pc.examines, hi]))
    rename_i hi
    cases hs
    have hend : ∀ m' i', s.pc p = .wakeup1 m' i' → NPROC ≤ i' := by
      intro m' i' e
      rw [hpc] at e
      cases e
      omega
    rw [hpc] at hml hrun hch
    exact inv_advance h .leave _ _ ⟨rfl, rfl, rfl⟩ keep hend hml hrun hch
  | leave =>
    have hrel := released (by rw [hpc]; rfl)
    rw [hpc] at hch
    simp only [Sys.go, hpc, Option.some.injEq] at hs
    subst hs
    exact inv_advance h .idle _ _ ⟨rfl, rfl, rfl⟩ hrel (by simp [hpc]) (by simp [Pc.holdsMtable])
      (by simp [Pc.executing]) hch

theorem inv_call (hp : s.pc p = .idle ∧ s.state p = .RUNNING) {c : Pc}
    (h1 : c.holdsMtable = false) (h2 : c.chan = none)
    (hc : c.sawLocked = none ∧ c.window = none ∧ c.slept = none) : Inv (s.setPc p c) := by
  have hch := (h.at_ p).chan
  rw [hp.1] at hch
  exact inv_advance h c _ _ hc (fun q _ => (h.at_ q).mtable) (by simp [hp.1]) (by simp [h1]) (fun _ => hp.2)
    (hch.trans h2.symm)

theorem inv_step {a : Act} (hg : ScanOutsideWindow s a) (hs : s.step a = some s') : Inv s' := by
  cases a with
  | go p => exact inv_go h hg hs
  | lock p id =>
    simp only [Sys.step] at hs
    split at hs
    next hp =>
      cases hs
      exact inv_call h hp rfl rfl ⟨rfl, rfl, rfl⟩
    · cases hs
  | unlock p id =>
    simp only [Sys.step] at hs
    split at hs
    next hp =>
      cases hs
      exact inv_call h hp rfl rfl ⟨rfl, rfl, rfl⟩
    · cases hs
  | dispatch p =>
    simp only [Sys.step] at hs
    split at hs
    next m hpc =>
      split at hs
      · cases hs
        have hch := (h.at_ p).chan
        rw [hpc] at hch
        exact inv_own h (.tidy m) rfl rfl rfl (fun q e => update_of_ne e _ _) (fun _ _ => rfl)
          (by simp [hpc]) rfl (fun _ => update_self ..) hch rfl (by simp [Pc.window, Pc.slept])
      · cases hs
    · cases hs
  | kill p =>
    simp only [Sys.step] at hs
    split at hs
    next hp =>
      cases hs
      refine ⟨fun q => ⟨(h.at_ q).mtable, ?_, (h.at_ q).chan, (h.at_ q).locked⟩, ?_⟩
      · intro hx
        have hr := (h.at_ q).running hx
        have e : q ≠ p := by
          rintro rfl
          simp [hp.1] at hr
        simpa [Sys.setState, e] using hr
      intro q m hd
      refine h.covered q m (hd.imp_right fun ⟨h1, h2⟩ => ⟨h1, ?_⟩)
      have e : q ≠ p := by
        rintro rfl
        simp [Sys.setState] at h2
      simpa [Sys.setState, e] using h2
    · cases hs

end

/-- **No lost wakeup, and what it takes.** In every run in which `mutex_unlock`'s scan examines no
entry whose process is between `release(mtable.lock)` and `p->state = SLEEPING` in its `sleep` on
that mutex, an unlocked mutex nobody is unlocking never has a sleeper. -/
theorem no_lost_wakeup {s : Sys} (h : machine.ReachBy ScanOutsideWindow s) : NoLostWakeup s :=
  noLostWakeup_of_inv (h.inv (I := Inv) (fun _ => inv_init) (fun _ _ _ hi hg hs => inv_step hi hg hs))

/-- One mutex with id 1, in slot 0; every process is running user code. -/
def oneMutex : Sys where
  mt := ⟨fun m => if m = 0 then ⟨1, .UNLOCKED⟩ else ⟨0, .LOCKED⟩, 2⟩
  state := fun _ => .RUNNING
  chan := fun _ => none
  pc := fun _ => .idle
  mtableLock := none
  ptableLock := none

def goes (p : Slot) (n : Nat) : List Act := List.replicate n (.go p)

/-- Process 1 waits for the mutex process 0 holds, is woken by the unlock and gets it. -/
def handoff : List Act :=
  Act.lock 0 1 :: goes 0 4 ++ Act.lock 1 1 :: goes 1 8 ++ Act.unlock 0 1 :: goes 0 (NPROC + 4) ++
    Act.dispatch 1 :: goes 1 5

theorem no_lost_wakeup_handoff : ∃ s, machine.ReachBy ScanOutsideWindow s ∧
    s.pc 1 = .idle ∧ (s.mt.mutex 0).state = .LOCKED ∧ NoLostWakeup s := by
  obtain ⟨s, hs, hp⟩ := Machine.exists_reachBy (M := machine) (G := ScanOutsideWindow)
    (s := oneMutex) ⟨fun _ => ⟨rfl, rfl⟩, rfl, rfl⟩ handoff
    (fun s => decide (s.pc 1 = .idle ∧ (s.mt.mutex 0).state = .LOCKED)) (by decide +kernel)
  obtain ⟨h1, h2⟩ := of_decide_eq_true hp
  exact ⟨s, hs, h1, h2, no_lost_wakeup hs⟩

/-! ### The run that loses one

Process 0 holds mutex 1 (slot 0). Process 1 finds it locked and gets as far as
`release(&mtable.lock)` in its `sleep`. Process 0 unlocks: its scan passes entry 1, which is still
`RUNNING`. Then process 1 marks itself `SLEEPING`: the mutex is free and nobody will wake it. -/

def lostRun : List Act :=
  Act.lock 0 1 :: goes 0 4 ++ Act.lock 1 1 :: goes 1 5 ++ Act.unlock 0 1 :: goes 0 (NPROC + 4) ++ goes 1 2

/-- Everybody else is out of the mutex code, the mutex is unlocked, and process 1 sleeps on it. -/
def LostEnd (s : Sys) : Prop :=
  (∀ u, u ≠ 1 → s.pc u = .idle) ∧ s.pc 1 = .sched 0 ∧ (s.mt.mutex 0).state = .UNLOCKED ∧
    s.state 1 = .SLEEPING ∧ s.chan 1 = some 0

instance (s : Sys) : Decidable (LostEnd s) := by unfold LostEnd; infer_instance

theorem lost_wakeup : ∃ s, machine.Reach s ∧ ¬ NoLostWakeup s := by
  obtain ⟨s, hs, hp⟩ := Machine.exists_reachBy (M := machine) (G := fun _ _ => True)
    (s := oneMutex) ⟨fun _ => ⟨rfl, rfl⟩, rfl, rfl⟩ lostRun (fun s => decide (LostEnd s)) (by decide +kernel)
  obtain ⟨hidle, h1, hm, hst, hc⟩ := of_decide_eq_true hp
  refine ⟨s, hs, fun h => h 0 ?_ hm 1 ⟨hst, hc⟩⟩
  intro u i hu
  by_cases e : u = 1
  · rw [e, h1] at hu; cases hu
  · rw [hidle u e] at hu; cases hu

end Xv6.Mutex.Wakeup
