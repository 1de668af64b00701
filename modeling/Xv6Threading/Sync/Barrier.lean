import Mathlib.Data.Fintype.EquivFin
import Xv6Threading.Sync.Flow
import Xv6Threading.Sync.Run

/-!
# The barrier (`proc.c:839-867`)

| here | there |
| --- | --- |
| `monitor` | `barrier_lock`: `count += 1`, the loop on `count < proc_count`, `wakeup(&proc_count)` |
| `Init`, `assign` | `barrier_init`, one assignment a step; `initlock` is two of them (`spinlock.c:16-17`) |
| `lk`, the channel | `lock`, `&proc_count` |

`barrier_init` takes no lock: nothing orders its assignments with the `barrier_lock` calls of other threads.
-/

namespace Xv6.Barrier

open Function
open Monitor

structure Data where
  count : BitVec 32
  procCount : BitVec 32
deriving DecidableEq

inductive Call where
  | barrierLock
deriving DecidableEq

def monitor (T : Type) : Monitor Call T Data where
  enter _ _ d := { d with count := d.count + 1 }
  blocked _ d := d.count.toInt < d.procCount.toInt
  leave _ _ d := d
  signals _ := true

/-- The next assignment of a `barrier_init(n)`. -/
inductive Init where
  | count (n : BitVec 32)
  | locked (n : BitVec 32)
  | cpu (n : BitVec 32)
  | procCount (n : BitVec 32)
deriving DecidableEq

structure Sys (T C : Type) where
  base : Monitor.Sys Call T C Data
  init : T → Option Init

inductive Act (T C : Type) where
  /-- Scheduling, and `barrier_lock`. -/
  | base (a : Monitor.Act Call T C)
  /-- The process on the CPU calls `barrier_init(n)`. -/
  | init (c : C) (n : BitVec 32)
  | initGo (c : C)

variable {T C : Type}

namespace Sys

variable [DecidableEq T] [DecidableEq C] (s : Sys T C)

def setData (d : Data) : Sys T C := { s with base := { s.base with data := d } }
def setLk (lk : Spinlock C) : Sys T C := { s with base := s.base.setLock .lk lk }
def setInit (p : T) (i : Option Init) : Sys T C := { s with init := update s.init p i }

def assign (p : T) : Init → Sys T C
  | .count n => (s.setData { s.base.data with count := 0 }).setInit p (some (.locked n))
  | .locked n => (s.setLk { s.base.lock .lk with locked := false }).setInit p (some (.cpu n))
  | .cpu n => (s.setLk { s.base.lock .lk with cpu := none }).setInit p (some (.procCount n))
  | .procCount n => (s.setData { s.base.data with procCount := n }).setInit p none

/-- A whole `barrier_init(n)` by `p`. -/
def barrierInit (p : T) (n : BitVec 32) : Sys T C :=
  (((s.assign p (.count n)).assign p (.locked n)).assign p (.cpu n)).assign p (.procCount n)

/-- The process on the CPU is in `barrier_init`. -/
def initialising (c : C) : Option Init := (s.base.proc c).bind s.init

def step : Act T C → Option (Sys T C)
  | .base (.call c i) =>
    if s.initialising c = none then (s.base.step (monitor T) (.call c i)).map fun b => { s with base := b } else none
  | .base a => (s.base.step (monitor T) a).map fun b => { s with base := b }
  | .init c n =>
    (s.base.proc c).bind fun p =>
      if s.base.panic = none ∧ s.base.pc p = .out ∧ s.init p = none then some (s.setInit p (some (.count n))) else none
  | .initGo c =>
    if s.base.panic = none then (s.base.proc c).bind fun p => (s.init p).map (s.assign p) else none

omit [DecidableEq T] [DecidableEq C] in
/-- Nobody is in a call. -/
def quiet (d : Data) : Sys T C := ⟨.boot d, fun _ => none⟩

end Sys

/-- Any number of calls of both functions. -/
def machine (T C : Type) [DecidableEq T] [DecidableEq C] : Machine (Sys T C) (Act T C) where
  init s := ∃ d, s = .quiet d
  step := Sys.step

/-- After a `barrier_init(n)`. -/
def initialised (T C : Type) [DecidableEq T] [DecidableEq C] (n : BitVec 32) : Machine (Sys T C) (Act T C) where
  init s := ∃ d p, s = Sys.barrierInit (.quiet d) p n
  step := Sys.step

variable [DecidableEq T] [DecidableEq C] {s s' : Sys T C} {n : BitVec 32} {b : Monitor.Sys Call T C Data}
  {a : Act T C}

omit [DecidableEq C] in
theorem barrierInit_quiet (d : Data) (p : T) (n : BitVec 32) :
    Sys.barrierInit (.quiet d : Sys T C) p n = .quiet ⟨0, n⟩ := by
  have hlock : update (fun _ : Lock => (⟨false, none⟩ : Spinlock C)) .lk ⟨false, none⟩ = fun _ => ⟨false, none⟩ :=
    update_eq_self Lock.lk (fun _ => (⟨false, none⟩ : Spinlock C))
  have hinit : update (fun _ : T => (none : Option Init)) p none = fun _ => none :=
    update_eq_self p (fun _ => (none : Option Init))
  simp only [Sys.barrierInit, Sys.assign, Sys.setData, Sys.setLk, Sys.setInit, Sys.quiet, Monitor.Sys.boot,
    Monitor.Sys.setLock, hlock, hinit, update_idem]

/-- A step is one of `barrier_lock` or of the scheduler, or one of `barrier_init`. -/
theorem step_cases (hs : s.step a = some s') :
    (∃ b, a = .base b ∧ s.base.step (monitor T) b = some s'.base ∧ s'.init = s.init) ∨
    (∃ c n p, a = .init c n ∧ s' = s.setInit p (some (.count n))) ∨
    ∃ c p i, a = .initGo c ∧ s.initialising c = some i ∧ s' = s.assign p i := by
  cases a with
  | base b =>
    refine Or.inl ⟨b, rfl, ?_⟩
    cases b with
    | call c i =>
      simp only [Sys.step] at hs
      split at hs
      · obtain ⟨t, ht, rfl⟩ := Option.map_eq_some_iff.1 hs
        exact ⟨ht, rfl⟩
      · cases hs
    | _ =>
      obtain ⟨t, ht, rfl⟩ := Option.map_eq_some_iff.1 hs
      exact ⟨ht, rfl⟩
  | init c n =>
    obtain ⟨p, hp, hs⟩ := Option.bind_eq_some_iff.1 hs
    split at hs <;> cases hs
    exact Or.inr (Or.inl ⟨c, n, p, rfl, rfl⟩)
  | initGo c =>
    simp only [Sys.step] at hs
    split at hs
    · obtain ⟨p, hp, hs⟩ := Option.bind_eq_some_iff.1 hs
      obtain ⟨i, hi, rfl⟩ := Option.map_eq_some_iff.1 hs
      exact Or.inr (Or.inr ⟨c, p, i, rfl, by rw [Sys.initialising, hp]; exact hi, rfl⟩)
    · cases hs

/-! ## Re-initialisation -/

/-- `initlock`'s assignments are made while nobody holds the lock. -/
def lockFree (s : Sys T C) : Act T C → Bool
  | .initGo c =>
    match s.initialising c with
    | some (.locked _) | some (.cpu _) => !(s.base.lock .lk).locked
    | _ => true
  | _ => true

omit [DecidableEq C] in
theorem inv_setData (h : Monitor.Inv b) (d : Data) : Monitor.Inv { b with data := d } :=
  ⟨h.excl.congr rfl rfl rfl rfl rfl, ⟨h.sleep.chan, h.sleep.sleeping, h.sleep.slept, h.sleep.asleep⟩,
    ⟨h.hist.called, h.hist.entered⟩⟩

omit [DecidableEq C] in
/-- A free lock has no owner to lose. -/
theorem inv_setLk (h : Monitor.Inv b) (hfree : (b.lock .lk).locked = false)
    {lk : Spinlock C} (hlk : lk.locked = false) : Monitor.Inv (b.setLock .lk lk) := by
  refine ⟨⟨h.excl.inj, h.excl.runs, ?_, ?_, h.excl.panic⟩,
    ⟨h.sleep.chan, h.sleep.sleeping, h.sleep.slept, h.sleep.asleep⟩, ⟨h.hist.called, h.hist.entered⟩⟩
  · intro l p hp
    have hl : l ≠ .lk := by
      rintro rfl
      rw [h.excl.locked hp] at hfree
      cases hfree
    obtain ⟨c, hc, he⟩ := h.excl.owner l p hp
    exact ⟨c, hc, by simpa [Monitor.Sys.setLock, hl] using he⟩
  intro l hl
  by_cases e : l = .lk
  · subst e
    simp [Monitor.Sys.setLock, hlk] at hl
  · simp only [Monitor.Sys.setLock, update_of_ne e] at hl ⊢
    exact h.excl.held l hl

theorem inv_step (h : Monitor.Inv s.base) (hg : lockFree s a = true) (hs : s.step a = some s') :
    Monitor.Inv s'.base := by
  rcases step_cases hs with ⟨b, rfl, hb, -⟩ | ⟨c, n, p, rfl, rfl⟩ | ⟨c, p, i, rfl, hi, rfl⟩
  · exact (h.step hb).1
  · exact h
  cases i with
  | count n => exact inv_setData h _
  | procCount n => exact inv_setData h _
  | locked n =>
    have hfree : (s.base.lock .lk).locked = false := by simpa [lockFree, hi] using hg
    exact inv_setLk h hfree rfl
  | cpu n =>
    have hfree : (s.base.lock .lk).locked = false := by simpa [lockFree, hi] using hg
    exact inv_setLk h hfree hfree

/-- **When `barrier_init` is safe.** Any threads call `barrier_init` and `barrier_lock` on any CPUs. If each of
the two assignments of `initlock` is executed while nobody holds the barrier's lock, the kernel does not panic
and at most one thread is in the critical section. -/
theorem reinit_safe (h : (machine T C).ReachBy (fun s a => lockFree s a = true) s) :
    s.base.panic = none ∧ ∀ p q, (s.base.pc p).holds .lk = true → (s.base.pc q).holds .lk = true → p = q := by
  have hinv : Monitor.Inv s.base := by
    refine h.inv (I := fun s => Monitor.Inv s.base) ?_ ?_
    · rintro s ⟨d, rfl⟩
      exact Monitor.inv_boot d
    · intro s a s' hi hg hs
      exact inv_step hi hg hs
  exact ⟨hinv.excl.panic, fun p q hp hq => hinv.excl.unique hp hq⟩

/-- On CPU `d` thread `q` initialises a barrier for one thread, and then `p` goes through it on CPU `c`. -/
def initThenLock (p q : T) (c d : C) : List (Act T C) :=
  [.base (.dispatch c p), .base (.dispatch d q), .init d 1, .initGo d, .initGo d, .initGo d, .initGo d,
   .base (.call c .barrierLock), .base (.go c), .base (.go c)]

theorem reinit_safe_initThenLock : ∃ s, (machine (Fin 2) (Fin 2)).ReachBy (fun s a => lockFree s a = true) s ∧
    s.base.data = ⟨1, 1⟩ ∧ (s.base.pc 0).holds .lk = true ∧ s.base.panic = none := by
  obtain ⟨s, hs, hp⟩ := Machine.exists_reachBy (M := machine (Fin 2) (Fin 2))
    (G := fun s a => lockFree s a = true) ⟨⟨0, 0⟩, rfl⟩ (initThenLock 0 1 0 1)
    (fun s => s.base.data = ⟨1, 1⟩ ∧ (s.base.pc 0).holds .lk = true) (by decide)
  obtain ⟨h1, h2⟩ := of_decide_eq_true hp
  exact ⟨s, hs, h1, h2, (reinit_safe hs).1⟩

/-- Thread `p` has the lock when `q` executes `lk->locked = 0`. -/
def initWhileHeld (p q : T) (c d : C) : List (Act T C) :=
  [.base (.dispatch c p), .base (.dispatch d q), .base (.call c .barrierLock), .base (.go c),
   .init d 1, .initGo d, .initGo d]

/-- Then thread 0 panics in `release`, or thread 1 gets into the critical section as well. -/
theorem reinit_unsafe :
    (∃ s, (machine (Fin 2) (Fin 2)).Reach s ∧ s.base.panic = some (.release, .lk)) ∧
    ∃ s, (machine (Fin 2) (Fin 2)).Reach s ∧ (s.base.pc 0).holds .lk = true ∧ (s.base.pc 1).holds .lk = true := by
  constructor
  · obtain ⟨s, hs, hp⟩ := Machine.exists_reachBy (M := machine (Fin 2) (Fin 2)) (G := fun _ _ => True) ⟨⟨0, 0⟩, rfl⟩
      (initWhileHeld 0 1 0 1 ++ List.replicate 7 (.base (.go 0))) (fun s => s.base.panic = some (.release, .lk))
      (by decide)
    exact ⟨s, hs, of_decide_eq_true hp⟩
  obtain ⟨s, hs, hp⟩ := Machine.exists_reachBy (M := machine (Fin 2) (Fin 2)) (G := fun _ _ => True) ⟨⟨0, 0⟩, rfl⟩
    (initWhileHeld 0 1 0 1 ++ [.initGo 1, .initGo 1, .base (.call 1 .barrierLock), .base (.go 1)])
    (fun s => (s.base.pc 0).holds .lk = true ∧ (s.base.pc 1).holds .lk = true) (by decide)
  exact ⟨s, hs, of_decide_eq_true hp⟩

/-! ## One round -/

/-- No further `barrier_init`. -/
def noInit (_ : Sys T C) : Act T C → Bool
  | .init _ _ => false
  | _ => true

omit [DecidableEq T] in
theorem signals_monitor : Signals (monitor T) := by
  constructor
  · intro i j p d _ hb
    exact ⟨rfl, hb⟩
  · intro i j p d hb hb'
    rw [show (monitor T).leave j p d = d from rfl, hb] at hb'
    cases hb'

/-- Past the loop of `barrier_lock`. -/
def past : Monitor.Pc Call → Bool
  | .leave _ | .wakeAcquire _ | .wakeScan _ | .wakeRelease _ | .release _ => true
  | _ => false

/-- `count` is the number of calls that have incremented it, and that is what lets a call through. -/
structure Round (n : BitVec 32) (s : Sys T C) : Prop where
  init : ∀ p, s.init p = none
  inv : Monitor.Inv s.base
  wait : Wait (monitor T) s.base
  data : s.base.data = ⟨BitVec.ofNat 32 s.base.entered.length, n⟩
  past : s.base.entered.length < 2 ^ 31 → (∃ p, past (s.base.pc p) = true) ∨ s.base.returned ≠ [] →
    n.toInt ≤ s.base.entered.length

theorem toInt_ofNat_of_lt {k : Nat} (h : k < 2 ^ 31) : (BitVec.ofNat 32 k).toInt = k := by
  rw [BitVec.toInt_eq_toNat_of_lt (by rw [BitVec.toNat_ofNat]; omega), BitVec.toNat_ofNat, Nat.mod_eq_of_lt (by omega)]

omit [DecidableEq C] in
theorem round_init (d : Data) (p : T) : Round n (Sys.barrierInit (.quiet d : Sys T C) p n) := by
  rw [barrierInit_quiet]
  refine ⟨fun _ => rfl, Monitor.inv_boot _, wait_boot _, rfl, ?_⟩
  rintro - (⟨q, hq⟩ | hr)
  · cases hq
  · exact absurd rfl hr

omit [DecidableEq C] in
/-- Who gets past the loop in a step has seen `count` at `n` or above. -/
theorem Round.passing (h : Round n s) {a : Monitor.Act Call T C} {t : Monitor.Sys Call T C Data}
    (hm : Moves (monitor T) s.base a t) (hlt : s.base.entered.length < 2 ^ 31)
    (ht : (∃ p, Barrier.past (t.pc p) = true) ∨ t.returned ≠ []) : n.toInt ≤ s.base.entered.length := by
  rcases ht with ⟨p, hp⟩ | hr
  · rcases hm.pc p with hpc | hpc | ⟨c, i, -, -, hpc⟩
    · exact h.past hlt (Or.inl ⟨p, by rwa [hpc] at hp⟩)
    · generalize hx : s.base.pc p = x at hpc
      generalize t.pc p = y at hpc hp
      have hpast : Barrier.past x = true → n.toInt ≤ s.base.entered.length := by
        intro hx'
        exact h.past hlt (Or.inl ⟨p, by rwa [hx]⟩)
      cases hpc <;> try first | exact hpast rfl | cases hp
      rename_i hb
      rw [h.data] at hb
      have hge : ¬ (BitVec.ofNat 32 s.base.entered.length).toInt < n.toInt := of_decide_eq_false hb
      rw [toInt_ofNat_of_lt hlt] at hge
      omega
    · rw [hpc] at hp
      cases hp
  · rcases hm.returned with he | ⟨p, i, hpc, -⟩
    · exact h.past hlt (Or.inr (by rwa [he] at hr))
    · exact h.past hlt (Or.inl ⟨p, by rw [hpc]; rfl⟩)

theorem Round.step (h : Round n s) (hg : noInit s a = true) (hs : s.step a = some s') : Round n s' := by
  rcases step_cases hs with ⟨b, rfl, hb, hinit⟩ | ⟨c, n, p, rfl, -⟩ | ⟨c, p, i, -, hi, -⟩
  · have hm := Moves.of_step hb
    obtain ⟨hinv, hwait⟩ := h.inv.step hb
    have hdata : s'.base.data = ⟨BitVec.ofNat 32 s'.base.entered.length, n⟩ ∧
        s.base.entered.length ≤ s'.base.entered.length := by
      rcases hm.effect with ⟨hd, he⟩ | ⟨p, i, -, hd, he, -, -⟩ | ⟨p, i, -, hd, he, -, -⟩
      · rw [hd, he, h.data]
        exact ⟨rfl, le_rfl⟩
      · rw [hd, he, h.data, List.length_append, List.length_singleton, BitVec.ofNat_add]
        exact ⟨rfl, Nat.le_add_right _ _⟩
      · rw [hd, he, h.data]
        exact ⟨rfl, le_rfl⟩
    refine ⟨by rw [hinit]; exact h.init, hinv, hwait signals_monitor h.wait, hdata.1, ?_⟩
    intro hlt hp
    have hle := h.passing hm (by omega) hp
    omega
  · cases hg
  · obtain ⟨p, -, hi⟩ := Option.bind_eq_some_iff.1 hi
    rw [h.init p] at hi
    cases hi

theorem round_of_reach (h : (initialised T C n).ReachBy (fun s a => noInit s a = true) s) : Round n s := by
  refine h.inv (I := Round n) ?_ ?_
  · rintro s ⟨d, p, rfl⟩
    exact round_init d p
  · intro s a s' hr hg hs
    exact hr.step hg hs

/-- **One round.** After `barrier_init(n)`, with any number of threads and calls, spurious wakeups and kills: no
call returns before `n` calls have incremented `count`, and when `count` has got to `n` and the lock is free, nobody
sleeps on `&proc_count`. -/
theorem one_round (h : (initialised T C n).ReachBy (fun s a => noInit s a = true) s)
    (hcalls : s.base.called.length < 2 ^ 31) :
    (s.base.returned ≠ [] → n.toInt ≤ s.base.entered.length) ∧
    ((s.base.lock .lk).locked = false → n.toInt ≤ s.base.data.count.toInt →
      ∀ p, ¬ (s.base.state p = .SLEEPING ∧ s.base.chan p = true)) := by
  have hr := round_of_reach h
  constructor
  · intro hret
    exact hr.past (lt_of_le_of_lt hr.inv.hist.entered_le hcalls) (Or.inr hret)
  rintro hfree hge p ⟨hp, -⟩
  obtain ⟨i, -, hb⟩ := hr.wait.blocked_of_free hr.inv.excl hr.inv.sleep hfree hp
  have hlt : s.base.data.count.toInt < s.base.data.procCount.toInt := of_decide_eq_true hb
  rw [hr.data] at hlt hge
  exact absurd hlt (not_lt.2 hge)

/-- Two threads, one CPU: `p` arrives and sleeps, `q` arrives, passes and wakes it, `p` returns. -/
def twoArrive (p q : T) (c : C) : List (Act T C) :=
  let go (k : Nat) : List (Act T C) := List.replicate k (.base (.go c))
  List.flatten [[.base (.dispatch c p), .base (.call c .barrierLock)], go 8,
    [.base (.dispatch c q), .base (.call c .barrierLock)], go 8, [.base (.preempt c), .base (.dispatch c p)], go 9]

theorem one_round_twoArrive : ∃ s, (initialised (Fin 2) (Fin 1) 2).ReachBy (fun s a => noInit s a = true) s ∧
    s.base.returned = [1, 0] ∧ (2#32).toInt ≤ s.base.entered.length := by
  obtain ⟨s, hs, hp⟩ := Machine.exists_reachBy (M := initialised (Fin 2) (Fin 1) 2)
    (G := fun s a => noInit s a = true) ⟨⟨0, 0⟩, 0, rfl⟩ (twoArrive 0 1 0)
    (fun s => s.base.returned = [1, 0] ∧ s.base.called.length < 2 ^ 31) (by decide)
  obtain ⟨h1, h2⟩ := of_decide_eq_true hp
  exact ⟨s, hs, h1, (one_round hs h2).1 (by rw [h1]; rintro ⟨⟩)⟩

/-! ## More rounds -/

/-- The thread calls `barrier_lock` for the first time. -/
def firstCall (s : Sys T C) : Act T C → Bool
  | .base (.call c _) => (s.base.proc c).all fun p => s.base.called.count p = 0
  | _ => true

theorem nodup_of_firstCall (h : (initialised T C n).ReachBy (fun s a => firstCall s a = true) s) :
    s.base.called.Nodup := by
  refine h.inv (I := fun s => s.base.called.Nodup) ?_ ?_
  · rintro s ⟨d, p, rfl⟩
    rw [barrierInit_quiet]
    exact List.nodup_nil
  intro s a s' hnd hg hs
  rcases step_cases hs with ⟨b, rfl, hb, -⟩ | ⟨c, n, p, rfl, rfl⟩ | ⟨c, p, i, rfl, -, rfl⟩
  · rcases (Moves.of_step hb).called with he | ⟨c, i, p, rfl, hc, he⟩
    · rwa [he]
    · have hp : p ∉ s.base.called := by
        rw [firstCall, hc] at hg
        exact List.count_eq_zero.1 (of_decide_eq_true hg)
      rw [he]
      exact List.nodup_append.2 ⟨hnd, List.nodup_singleton p, by
        rintro x hx y hy rfl
        exact hp (List.mem_singleton.1 hy ▸ hx)⟩
  · exact hnd
  · cases i <;> exact hnd

/-- **Reuse.** Let there be `n` threads. If `n` is 1, or no thread calls `barrier_lock` more than once, then no
thread's `r`-th call returns before all threads have made their `r`-th call. -/
theorem reuse [Fintype T] (hn : (Fintype.card T : Int) = n.toInt) (h : (initialised T C n).ReachBy
      (fun s a => noInit s a = true ∧ (Fintype.card T ≤ 1 ∨ firstCall s a = true)) s) (t u : T) (r : Nat)
    (hr : r ≤ s.base.returned.count t) : r ≤ s.base.called.count u := by
  have hround := round_of_reach (h.mono fun _ _ hg => hg.1)
  have hcounts : ∀ p, s.base.returned.count p ≤ s.base.entered.count p ∧
      s.base.entered.count p ≤ s.base.called.count p := by
    intro p
    have := hround.inv.hist.called p
    have := hround.inv.hist.entered p
    omega
  by_cases hone : Fintype.card T ≤ 1
  · rw [Fintype.card_le_one_iff.1 hone u t]
    exact hr.trans ((hcounts t).1.trans (hcounts t).2)
  have hcalled := nodup_of_firstCall (h.mono fun _ _ hg => hg.2.resolve_left hone)
  have hle : ∀ p, s.base.entered.count p ≤ 1 := fun p => (hcounts p).2.trans (List.nodup_iff_count_le_one.1 hcalled p)
  have hentered : s.base.entered.Nodup := List.nodup_iff_count_le_one.2 hle
  have hbound : s.base.entered.length ≤ Fintype.card T := hentered.length_le_card
  rcases Nat.eq_zero_or_pos r with rfl | hpos
  · exact Nat.zero_le _
  have hret : s.base.returned ≠ [] := by
    intro e
    rw [e, List.count_nil] at hr
    omega
  have hn31 : n.toInt < 2 ^ 31 := BitVec.toInt_lt
  have hall := hround.past (by omega) (Or.inr hret)
  have hu : u ∈ s.base.entered := by
    have huniv : s.base.entered.toFinset = Finset.univ := by
      apply Finset.eq_univ_of_card
      rw [List.toFinset_card_of_nodup hentered]
      omega
    rw [← List.mem_toFinset, huniv]
    exact Finset.mem_univ u
  have := List.count_pos_iff.2 hu
  have := hle t
  have := hcounts t
  have := (hcounts u).2
  omega

theorem reuse_twoArrive : ∃ s, (initialised (Fin 2) (Fin 1) 2).ReachBy
    (fun s a => noInit s a = true ∧ (Fintype.card (Fin 2) ≤ 1 ∨ firstCall s a = true)) s ∧
    s.base.returned.count 0 = 1 ∧ 1 ≤ s.base.called.count 1 := by
  obtain ⟨s, hs, hp⟩ := Machine.exists_reachBy (M := initialised (Fin 2) (Fin 1) 2)
    (G := fun s a => noInit s a = true ∧ (Fintype.card (Fin 2) ≤ 1 ∨ firstCall s a = true)) ⟨⟨0, 0⟩, 0, rfl⟩ (twoArrive 0 1 0)
    (fun s => s.base.returned.count 0 = 1) (by decide)
  have h1 := of_decide_eq_true hp
  exact ⟨s, hs, h1, reuse rfl hs 0 1 1 h1.ge⟩

/-- Thread `p` waits in its first call; `q` returns from its first call and goes straight through its second. -/
def secondRound (p q : T) (c : C) : List (Act T C) :=
  let go (k : Nat) : List (Act T C) := List.replicate k (.base (.go c))
  List.flatten [[.base (.dispatch c p), .base (.call c .barrierLock)], go 8,
    [.base (.dispatch c q), .base (.call c .barrierLock)], go 8, [.base (.call c .barrierLock)], go 8]

theorem reuse_fails : ∃ s, (initialised (Fin 2) (Fin 1) 2).ReachBy (fun s a => noInit s a = true) s ∧
    s.base.returned.count 1 = 2 ∧ s.base.called.count 0 = 1 := by
  obtain ⟨s, hs, hp⟩ := Machine.exists_reachBy (M := initialised (Fin 2) (Fin 1) 2)
    (G := fun s a => noInit s a = true) ⟨⟨0, 0⟩, 0, rfl⟩ (secondRound 0 1 0)
    (fun s => s.base.returned.count 1 = 2 ∧ s.base.called.count 0 = 1) (by decide)
  exact ⟨s, hs, of_decide_eq_true hp⟩

end Xv6.Barrier
