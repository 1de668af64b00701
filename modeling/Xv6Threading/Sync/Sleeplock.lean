import Xv6Threading.Sync.Flow
import Xv6Threading.Sync.Run

/-!
# Sleep locks (`sleeplock.c:22-53`)

| here | there |
| --- | --- |
| `locked`, `pid` | the fields of `struct sleeplock`; `lk->lk` is the `lk` of the monitor, `lk` its channel |
| `monitor` | `acquiresleep`, `releasesleep`, `holdingsleep` |
| `holders` | history: who has set `locked` and not cleared it since |
-/

namespace Xv6.Sleeplock

open Function
open Monitor

structure Data (T : Type) where
  locked : Bool
  pid : BitVec 32
  holders : T → Bool

inductive Call where
  | acquiresleep
  | releasesleep
  | holdingsleep
deriving DecidableEq

section

variable {T : Type}

/-- What `holdingsleep` returns to a process with this pid. -/
def Data.holdingsleep (d : Data T) (pid : BitVec 32) : Bool := d.locked && d.pid = pid

/-- As `initsleeplock` leaves it. -/
def Data.zero : Data T := ⟨false, 0, fun _ => false⟩

variable [DecidableEq T]

def monitor (pid : T → BitVec 32) : Monitor Call T (Data T) where
  enter
    | .releasesleep, p, d => { locked := false, pid := 0, holders := update d.holders p false }
    | .acquiresleep, _, d | .holdingsleep, _, d => d
  blocked
    | .acquiresleep, d => d.locked
    | .releasesleep, _ | .holdingsleep, _ => false
  leave
    | .acquiresleep, p, d => { locked := true, pid := pid p, holders := update d.holders p true }
    | .releasesleep, _, d | .holdingsleep, _, d => d
  signals
    | .releasesleep => true
    | .acquiresleep | .holdingsleep => false

end

variable {T C : Type} [DecidableEq T] [DecidableEq C]

/-- `releasesleep` is called by who holds the lock. -/
def byHolder (s : Monitor.Sys Call T C (Data T)) : Monitor.Act Call T C → Bool
  | .call c .releasesleep => (s.proc c).all s.data.holders
  | _ => true

variable {pid : T → BitVec 32} {s s' : Monitor.Sys Call T C (Data T)} {a : Monitor.Act Call T C}

theorem signals_monitor : Signals (monitor pid) := by
  constructor
  · intro i j p d hb hb'
    cases j with
    | releasesleep => exact ⟨rfl, rfl⟩
    | acquiresleep | holdingsleep =>
      rw [show (monitor pid).enter _ p d = d from rfl, hb] at hb'
      cases hb'
  intro i j p d hb hb'
  cases j with
  | acquiresleep =>
    cases i with
    | acquiresleep => cases hb'
    | releasesleep | holdingsleep => cases hb
  | releasesleep | holdingsleep =>
    rw [show (monitor pid).leave _ p d = d from rfl, hb] at hb'
    cases hb'

/-- On the way to the two assignments of `releasesleep`. -/
def releasing : Monitor.Pc Call → Bool
  | .entry .releasesleep | .update .releasesleep => true
  | _ => false

structure Held (pid : T → BitVec 32) (s : Monitor.Sys Call T C (Data T)) : Prop where
  inv : Monitor.Inv s
  wait : Wait (monitor pid) s
  unique : ∀ p q, s.data.holders p = true → s.data.holders q = true → p = q
  locked : s.data.locked = true ↔ ∃ p, s.data.holders p = true
  pid : ∀ p, s.data.holders p = true → s.data.pid = pid p
  releasing : ∀ p, releasing (s.pc p) = true → s.data.holders p = true

omit [DecidableEq C] in
theorem held_boot : Held pid (.boot .zero : Monitor.Sys Call T C (Data T)) := by
  refine ⟨Monitor.inv_boot _, wait_boot _, ?_, ?_, ?_, ?_⟩
  · rintro p q ⟨⟩
  · constructor
    · rintro ⟨⟩
    · rintro ⟨p, ⟨⟩⟩
  · rintro p ⟨⟩
  · rintro p ⟨⟩

omit [DecidableEq C] in
/-- A step that leaves the data as it is: who comes to `releasesleep` holds the lock. -/
theorem Held.same (h : Held pid s) (hg : byHolder s a = true) (hinv : Monitor.Inv s')
    (hwait : Wait (monitor pid) s') (hm : Moves (monitor pid) s a s') (hdata : s'.data = s.data) : Held pid s' := by
  refine ⟨hinv, hwait, ?_, ?_, ?_, ?_⟩
  · rw [hdata]
    exact h.unique
  · rw [hdata]
    exact h.locked
  · rw [hdata]
    exact h.pid
  intro p hp
  rw [hdata]
  rcases hm.pc p with hpc | hpc | ⟨c, i, rfl, hc, hpc⟩
  · exact h.releasing p (by rwa [hpc] at hp)
  · generalize hx : s.pc p = x at hpc
    generalize s'.pc p = y at hpc hp
    cases hpc <;> try cases hp
    rename_i i
    cases i with
    | releasesleep => exact h.releasing p (by rw [hx]; rfl)
    | acquiresleep | holdingsleep => cases hp
  rw [hpc] at hp
  cases i with
  | releasesleep =>
    rw [byHolder, hc] at hg
    exact hg
  | acquiresleep | holdingsleep => cases hp

theorem Held.step (h : Held pid s) (hg : byHolder s a = true)
    (hs : s.step (monitor pid) a = some s') : Held pid s' := by
  obtain ⟨hinv, hwait⟩ := h.inv.step hs
  have hwait := hwait signals_monitor h.wait
  have hm := Moves.of_step hs
  rcases hm.effect with ⟨hd, -⟩ | ⟨p, i, hpc, hd, -, hnext, hself⟩ | ⟨p, i, hpc, hd, -, hnext, hself⟩
  · exact h.same hg hinv hwait hm hd
  · cases i with
    | acquiresleep | holdingsleep => exact h.same hg hinv hwait hm hd
    | releasesleep =>
      have hp : s.data.holders p = true := h.releasing p (by rw [hpc]; rfl)
      have hnone : ∀ q, s'.data.holders q = false := by
        intro q
        rw [hd]
        by_cases e : q = p
        · subst e
          exact update_self _ _ _
        · refine (update_of_ne e _ _).trans ?_
          by_contra hq
          exact e (h.unique q p (Bool.eq_true_of_not_eq_false hq) hp)
      refine ⟨hinv, hwait, ?_, ?_, ?_, ?_⟩
      · intro q r hq
        rw [hnone q] at hq
        cases hq
      · rw [hd]
        constructor
        · rintro ⟨⟩
        · rintro ⟨q, hq⟩
          rw [← hd, hnone q] at hq
          cases hq
      · intro q hq
        rw [hnone q] at hq
        cases hq
      intro q hq
      by_cases e : q = p
      · subst e
        rw [hself] at hq
        cases hq
      · rw [hnext q e] at hq
        exact absurd (h.unique q p (h.releasing q hq) hp) e
  cases i with
  | releasesleep | holdingsleep => exact h.same hg hinv hwait hm hd
  | acquiresleep =>
    -- the loop was left with `locked == 0`, under `lk->lk`
    have hfree : s.data.locked = false := h.wait.past p .acquiresleep hpc
    have hnone : ∀ q, s.data.holders q ≠ true := by
      intro q hq
      rw [h.locked.2 ⟨q, hq⟩] at hfree
      cases hfree
    have honly : ∀ q, s'.data.holders q = true ↔ q = p := by
      intro q
      rw [hd]
      show update s.data.holders p true q = true ↔ q = p
      by_cases e : q = p
      · subst e
        simp
      · rw [update_of_ne e]
        simp [e, hnone q]
    refine ⟨hinv, hwait, ?_, ?_, ?_, ?_⟩
    · intro q r hq hr
      rw [(honly q).1 hq, (honly r).1 hr]
    · rw [hd]
      exact ⟨fun _ => ⟨p, by rw [← hd]; exact (honly p).2 rfl⟩, fun _ => rfl⟩
    · intro q hq
      rw [(honly q).1 hq, hd]
      rfl
    intro q hq
    by_cases e : q = p
    · subst e
      rcases hself with hself | hself <;> rw [hself] at hq <;> cases hq
    · rw [hnext q e] at hq
      exact absurd (h.releasing q hq) (hnone q)

theorem held_of_reach
    (h : (Monitor.machine C (monitor pid) .zero).ReachBy (fun s a => byHolder s a = true) s) : Held pid s := by
  refine h.inv (I := Held pid) ?_ ?_
  · rintro s rfl
    exact held_boot
  · intro s a s' hi hg hs
    exact hi.step hg hs

/-- **Sleep locks.** Any number of processes call `acquiresleep`, `holdingsleep` and, if they hold the lock,
`releasesleep`, with kills and spurious wakeups at any time. At most one process holds the lock, and when
`lk->locked` is 0 and `lk->lk` is free, nobody sleeps on `lk`. -/
theorem sleeplock_correct
    (h : (Monitor.machine C (monitor pid) .zero).ReachBy (fun s a => byHolder s a = true) s) :
    (∀ p q, s.data.holders p = true → s.data.holders q = true → p = q) ∧
    (s.data.locked = false → (s.lock .lk).locked = false → ∀ p, ¬ (s.state p = .SLEEPING ∧ s.chan p = true)) := by
  have hheld := held_of_reach h
  refine ⟨hheld.unique, ?_⟩
  rintro hunlocked hfree p ⟨hp, -⟩
  obtain ⟨i, -, hb⟩ := hheld.wait.blocked_of_free hheld.inv.excl hheld.inv.sleep hfree hp
  cases i with
  | acquiresleep =>
    rw [show s.data.locked = true from hb] at hunlocked
    cases hunlocked
  | releasesleep | holdingsleep => cases hb

/-- With pids that tell processes apart, `holdingsleep` tells who holds the lock. -/
theorem holdingsleep_eq (hpid : Injective pid)
    (h : (Monitor.machine C (monitor pid) .zero).ReachBy (fun s a => byHolder s a = true) s) (p : T) :
    s.data.holdingsleep (pid p) = s.data.holders p := by
  have hheld := held_of_reach h
  rw [Bool.eq_iff_iff, Data.holdingsleep, Bool.and_eq_true, decide_eq_true_eq]
  constructor
  · rintro ⟨hl, he⟩
    obtain ⟨q, hq⟩ := hheld.locked.1 hl
    rw [hheld.pid q hq] at he
    rwa [← hpid he]
  · intro hp
    exact ⟨hheld.locked.2 ⟨p, hp⟩, hheld.pid p hp⟩

/-- On one CPU: `p` takes the lock, `q` sleeps on it, `p` releases it, `q` has it. -/
def handOver (p q : T) (c : C) : List (Monitor.Act Call T C) :=
  let go (k : Nat) : List (Monitor.Act Call T C) := List.replicate k (.go c)
  List.flatten [[.dispatch c p, .call c .acquiresleep], go 5, [.preempt c, .dispatch c q, .call c .acquiresleep], go 8,
    [.dispatch c p, .call c .releasesleep], go 8, [.preempt c, .dispatch c q], go 6]

def pidOf (p : Fin 2) : BitVec 32 := BitVec.ofNat 32 (p + 1)

theorem reach_handOver : ∃ s, (Monitor.machine (Fin 1) (monitor pidOf) .zero).ReachBy
    (fun s a => byHolder s a = true) s ∧ s.data.holders 1 = true ∧ s.data.holders 0 = false := by
  obtain ⟨s, hs, hp⟩ := Machine.exists_reachBy (M := Monitor.machine (Fin 1) (monitor pidOf) .zero)
    (G := fun s a => byHolder s a = true) rfl (handOver 0 1 0)
    (fun s => s.data.holders 1 = true ∧ s.data.holders 0 = false) (by decide)
  exact ⟨s, hs, of_decide_eq_true hp⟩

theorem sleeplock_correct_handOver : ∃ s, (Monitor.machine (Fin 1) (monitor pidOf) .zero).ReachBy
    (fun s a => byHolder s a = true) s ∧ s.data.holders 1 = true ∧ s.data.holders 0 = false := by
  obtain ⟨s, hs, h1, -⟩ := reach_handOver
  refine ⟨s, hs, h1, ?_⟩
  by_contra h0
  cases (sleeplock_correct hs).1 1 0 h1 (Bool.eq_true_of_not_eq_false h0)

/-- The pid is that of the second process, and not that of the first. -/
theorem holdingsleep_eq_held : ∃ s, (Monitor.machine (Fin 1) (monitor pidOf) .zero).ReachBy
    (fun s a => byHolder s a = true) s ∧ s.data.holdingsleep 2 = true ∧ s.data.holdingsleep 1 = false := by
  obtain ⟨s, hs, h1, h0⟩ := reach_handOver
  have hpid : Function.Injective pidOf := by decide
  exact ⟨s, hs, (holdingsleep_eq hpid hs 1).trans h1, (holdingsleep_eq hpid hs 0).trans h0⟩

end Xv6.Sleeplock
