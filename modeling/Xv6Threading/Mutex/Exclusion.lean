import Xv6Threading.Lib.Machine
import Xv6Threading.Mutex.Table
import Mathlib.Data.Fintype.Card

/-!
# Mutual exclusion of `mutex_lock` / `mutex_unlock` (`proc.c:776-836`)

Any number of threads call `mutex_init`, `mutex_lock` and `mutex_unlock`. The critical section of
a call under `mtable.lock` is one step; `mutex_lock` is split at its `sleep(m, &mtable.lock)`
(`proc.c:809-811`): a waiter remembers the *slot* `m` it found, not the id it looked for, and
re-runs the `while` test on that slot when it is woken.

| here | there |
| --- | --- |
| `Tstate.waiting id m asleep` | inside `mutex_lock(id)`, at the `sleep` on slot `m`; `asleep = false` once `wakeup1` or `kill` made it `RUNNABLE` |
| `enter` | the `while` test and what follows it (`proc.c:809-816`) |
| `wakeup1` | `wakeup1(m)` (`proc.c:832`, `proc.c:580`) seen from the waiters |
| `holds t id` | ghost: `t` returned 0 from `mutex_lock(id)` and has not called `mutex_unlock(id)` since |

`mutex_init` takes the first slot whose state is `LOCKED` (`proc.c:783`). In the zeroed table that
is the mark of a free slot; in a table in use it is also the state of a mutex somebody holds. The
slot is then renamed and unlocked under its holder, and a waiter that slept on it walks in
(`two_holders_of_one_id`). `mutex_exclusion`: this is the only way to break mutual exclusion.
-/

namespace Xv6.Mutex

open Function

inductive Tstate where
  | idle
  | waiting (id : BitVec 32) (m : Mslot) (asleep : Bool)
deriving DecidableEq, Repr

/-- The slot a waiter sleeps on. -/
def Tstate.slot : Tstate → Option Mslot
  | .idle => none
  | .waiting _ m _ => some m

structure Sys (T : Type) where
  mt : Mtable
  thr : T → Tstate
  holds : T → BitVec 32 → Bool

inductive Act (T : Type) where
  | init (t : T)
  | lock (t : T) (id : BitVec 32)
  | unlock (t : T) (id : BitVec 32)
  /-- A woken waiter gets `mtable.lock` back and re-runs the `while` test. -/
  | resume (t : T)
  /-- `kill` makes a sleeper `RUNNABLE` (`proc.c:611`). -/
  | kill (t : T)

variable {T : Type} [DecidableEq T]

namespace Sys

def setThr (s : Sys T) (t : T) (st : Tstate) : Sys T := { s with thr := update s.thr t st }

def setHolds (s : Sys T) (t : T) (id : BitVec 32) (b : Bool) : Sys T :=
  { s with holds := update s.holds t (update (s.holds t) id b) }

def enter (s : Sys T) (t : T) (id : BitVec 32) (m : Mslot) : Sys T :=
  if (s.mt.mutex m).state = .LOCKED then s.setThr t (.waiting id m true)
  else ({ s with mt := s.mt.setState m .LOCKED }.setThr t .idle).setHolds t id true

def wake (m : Mslot) : Tstate → Tstate
  | .waiting id m' asleep => .waiting id m' (asleep && m' != m)
  | .idle => .idle

def wakeup1 (s : Sys T) (m : Mslot) : Sys T := { s with thr := fun t => wake m (s.thr t) }

def step (s : Sys T) : Act T → Option (Sys T)
  | .init t =>
    if s.thr t = .idle then
      match s.mt.mutexInit with
      | none => some s
      | some (mt, _) => some { s with mt := mt }
    else none
  | .lock t id =>
    if s.thr t = .idle then
      match s.mt.findId id with
      | none => some s
      | some m => some (s.enter t id m)
    else none
  | .unlock t id =>
    if s.thr t = .idle then
      match s.mt.findId id with
      | none => some (s.setHolds t id false)
      | some m =>
        if (s.mt.mutex m).state = .LOCKED then
          some (({ s with mt := s.mt.setState m .UNLOCKED }.wakeup1 m).setHolds t id false)
        else some (s.setHolds t id false)
    else none
  | .resume t =>
    match s.thr t with
    | .waiting id m false => some (s.enter t id m)
    | _ => none
  | .kill t =>
    match s.thr t with
    | .waiting id m true => some (s.setThr t (.waiting id m false))
    | _ => none

def boot : Sys T := ⟨Mtable.boot, fun _ => .idle, fun _ _ => false⟩

end Sys

def machine (T : Type) [DecidableEq T] : Machine (Sys T) (Act T) where
  init s := s = Sys.boot
  step := Sys.step

/-- A thread calls `mutex_unlock(id)` only while it holds `id`. -/
def Disciplined (s : Sys T) : Act T → Prop
  | .unlock t id => s.holds t id = true
  | _ => True

/-- The slot `mutex_init` is about to take belongs to nobody: no thread holds the id it carries
and no thread waits on it. -/
def InitTakesFree (s : Sys T) : Act T → Prop
  | .init _ => ∀ m, s.mt.findLocked = some m →
      (∀ t, s.holds t (s.mt.mutex m).id = false) ∧ ∀ t, (s.thr t).slot ≠ some m
  | _ => True

instance (s : Sys T) : (a : Act T) → Decidable (Disciplined s a)
  | .unlock t id => inferInstanceAs (Decidable (s.holds t id = true))
  | .init _ | .lock _ _ | .resume _ | .kill _ => inferInstanceAs (Decidable True)

instance (s : Sys T) [Fintype T] : (a : Act T) → Decidable (InitTakesFree s a)
  | .init _ => inferInstanceAs (Decidable (∀ m, s.mt.findLocked = some m →
      (∀ t, s.holds t (s.mt.mutex m).id = false) ∧ ∀ t, (s.thr t).slot ≠ some m))
  | .lock _ _ | .unlock _ _ | .resume _ | .kill _ => inferInstanceAs (Decidable True)

/-! ## The invariant -/

/-- The slots that have been given out carry a nonzero id. -/
def given (mt : Mtable) : Finset Mslot := Finset.univ.filter fun m => (mt.mutex m).id ≠ 0#32

structure Inv (s : Sys T) : Prop where
  /-- A slot never given out still looks locked. -/
  virgin : ∀ m, (s.mt.mutex m).id = 0#32 → (s.mt.mutex m).state = .LOCKED
  /-- Ids are handed out in order, so `nextmid` counts the slots given out. -/
  count : s.mt.nextmid.toNat = 1 + (given s.mt).card
  below : ∀ m, (s.mt.mutex m).id ≠ 0#32 → (s.mt.mutex m).id.toNat < s.mt.nextmid.toNat
  inj : ∀ m m', (s.mt.mutex m).id ≠ 0#32 → (s.mt.mutex m).id = (s.mt.mutex m').id → m = m'
  /-- A given-out slot is locked by exactly its holder. -/
  owner : ∀ m, (s.mt.mutex m).id ≠ 0#32 → (s.mt.mutex m).state = .LOCKED →
    ∃ t, s.holds t (s.mt.mutex m).id = true
  held : ∀ t id, s.holds t id = true →
    ∃ m, (s.mt.mutex m).id = id ∧ id ≠ 0#32 ∧ (s.mt.mutex m).state = .LOCKED
  excl : ∀ t t' id, s.holds t id = true → s.holds t' id = true → t = t'
  wait : ∀ t id m b, s.thr t = .waiting id m b → (s.mt.mutex m).id = id

omit [DecidableEq T] in
theorem inv_boot : Inv (Sys.boot : Sys T) where
  virgin _ _ := rfl
  count := by simp [Sys.boot, Mtable.boot, given]
  below _ h := absurd rfl h
  inj _ _ h := absurd rfl h
  owner _ h := absurd rfl h
  held _ _ h := by simp [Sys.boot] at h
  excl _ _ _ h := by simp [Sys.boot] at h
  wait _ _ _ _ h := by simp [Sys.boot] at h

/-! ### One lemma per thing a step does to the state -/

variable {s : Sys T}

theorem inv_setThr (h : Inv s) (t : T) (st : Tstate)
    (hst : ∀ id m b, st = .waiting id m b → (s.mt.mutex m).id = id) : Inv (s.setThr t st) := by
  refine { h with wait := ?_ }
  intro u id m b hu
  simp only [Sys.setThr] at hu ⊢
  by_cases e : u = t
  · subst e; exact hst id m b (by simpa using hu)
  · exact h.wait u id m b (by simpa [e] using hu)

omit [DecidableEq T] in
theorem inv_wakeup1 (h : Inv s) (m : Mslot) : Inv (s.wakeup1 m) := by
  refine { h with wait := ?_ }
  intro u id m' b hu
  simp only [Sys.wakeup1] at hu
  cases e : s.thr u with
  | idle => simp [Sys.wake, e] at hu
  | waiting id' m'' b' =>
    simp only [e, Sys.wake, Tstate.waiting.injEq] at hu
    obtain ⟨rfl, rfl, -⟩ := hu
    exact h.wait u id' m'' b' e

theorem holds_setHolds (s : Sys T) (t u : T) (id id' : BitVec 32) (b : Bool) :
    (s.setHolds t id b).holds u id' = if u = t ∧ id' = id then b else s.holds u id' := by
  by_cases hu : u = t
  · subst hu
    by_cases hi : id' = id
    · subst hi; simp [Sys.setHolds]
    · simp [Sys.setHolds, hi]
  · simp [Sys.setHolds, hu]

theorem given_setState (mt : Mtable) (m : Mslot) (st : Mutexstate) :
    given (mt.setState m st) = given mt := by simp [given]

/-- Locking a free slot that was given out makes the caller its only holder. -/
theorem inv_lock (h : Inv s) (t : T) (m : Mslot) (hu : (s.mt.mutex m).state ≠ .LOCKED) :
    Inv (({ s with mt := s.mt.setState m .LOCKED }).setHolds t (s.mt.mutex m).id true) := by
  have hne : (s.mt.mutex m).id ≠ 0#32 := fun h0 => hu (h.virgin m h0)
  have hfree : ∀ u, s.holds u (s.mt.mutex m).id ≠ true := by
    intro u hu'
    obtain ⟨m', hid, _, hst⟩ := h.held u _ hu'
    rw [h.inj m m' hne hid.symm] at hu
    exact hu hst
  have hst : ∀ j, ((s.mt.setState m .LOCKED).mutex j).state = .LOCKED ↔
      j = m ∨ (s.mt.mutex j).state = .LOCKED := by
    intro j
    by_cases e : j = m
    · subst e; simp
    · simp [Mtable.setState_state_ne _ _ e, e]
  refine ⟨?_, ?_, ?_, ?_, ?_, ?_, ?_, ?_⟩
  · intro j hj
    exact (hst j).2 (.inr (h.virgin j (by simpa [Sys.setHolds] using hj)))
  · simpa [Sys.setHolds, given_setState] using h.count
  · intro j hj
    simpa [Sys.setHolds] using h.below j (by simpa [Sys.setHolds] using hj)
  · intro j j' hj hjj
    exact h.inj j j' (by simpa [Sys.setHolds] using hj) (by simpa [Sys.setHolds] using hjj)
  · intro j hj hl
    simp only [holds_setHolds]
    by_cases e : j = m
    · subst e; exact ⟨t, by simp [Sys.setHolds]⟩
    have hl' : (s.mt.mutex j).state = .LOCKED := by
      simpa [Sys.setHolds, Mtable.setState_state_ne _ _ e] using hl
    obtain ⟨u, hu'⟩ := h.owner j (by simpa [Sys.setHolds] using hj) hl'
    refine ⟨u, ?_⟩
    have : (s.mt.mutex j).id ≠ (s.mt.mutex m).id := fun hh =>
      e (h.inj j m (by simpa [Sys.setHolds] using hj) hh)
    simpa [Sys.setHolds, this] using hu'
  · intro u id hh
    rw [holds_setHolds] at hh
    split at hh
    next e =>
      exact ⟨m, by simp [Sys.setHolds, e.2], e.2 ▸ hne, by simp [Sys.setHolds]⟩
    · obtain ⟨m', hid, h0, hl⟩ := h.held u id hh
      exact ⟨m', by simpa [Sys.setHolds] using hid, h0, (hst m').2 (.inr hl)⟩
  · intro u u' id h1 h2
    rw [holds_setHolds] at h1 h2
    split at h1 <;> split at h2
    next e1 e2 =>
      rw [e1.1, e2.1]
    next e1 _ =>
      exact absurd (e1.2 ▸ h2) (hfree u')
    next _ e2 =>
      exact absurd (e2.2 ▸ h1) (hfree u)
    · exact h.excl u u' id h1 h2
  · intro u id m' b hw
    simpa [Sys.setHolds] using h.wait u id m' b hw

/-- Unlocking: the id is held by the caller alone, so nobody holds it afterwards. -/
theorem inv_unlock (h : Inv s) (t : T) (m : Mslot) (hh : s.holds t (s.mt.mutex m).id = true) :
    Inv (({ s with mt := s.mt.setState m .UNLOCKED }).setHolds t (s.mt.mutex m).id false) := by
  obtain ⟨m0, hid0, hne, -⟩ := h.held t _ hh
  have hst : ∀ j, ((s.mt.setState m .UNLOCKED).mutex j).state = .LOCKED ↔
      j ≠ m ∧ (s.mt.mutex j).state = .LOCKED := by
    intro j
    by_cases e : j = m
    · subst e; simp
    · simp [Mtable.setState_state_ne _ _ e, e]
  have hold : ∀ u id, (({ s with mt := s.mt.setState m .UNLOCKED }).setHolds t (s.mt.mutex m).id
      false).holds u id = true ↔ id ≠ (s.mt.mutex m).id ∧ s.holds u id = true := by
    intro u id
    rw [holds_setHolds]
    constructor
    · intro hu
      split at hu
      · cases hu
      next e =>
        refine ⟨fun he => e ⟨?_, he⟩, hu⟩
        exact h.excl u t id hu (he ▸ hh)
    · rintro ⟨hid, hu⟩
      simp [hid, hu]
  refine ⟨?_, ?_, ?_, ?_, ?_, ?_, ?_, ?_⟩
  · intro j hj
    have hj' : (s.mt.mutex j).id = 0#32 := by simpa [Sys.setHolds] using hj
    refine (hst j).2 ⟨fun e => hne (e ▸ hj'), h.virgin j hj'⟩
  · simpa [Sys.setHolds, given_setState] using h.count
  · intro j hj
    simpa [Sys.setHolds] using h.below j (by simpa [Sys.setHolds] using hj)
  · intro j j' hj hjj
    exact h.inj j j' (by simpa [Sys.setHolds] using hj) (by simpa [Sys.setHolds] using hjj)
  · intro j hj hl
    have hj' : (s.mt.mutex j).id ≠ 0#32 := by simpa [Sys.setHolds] using hj
    obtain ⟨hjm, hl'⟩ := (hst j).1 hl
    obtain ⟨u, hu⟩ := h.owner j hj' hl'
    refine ⟨u, ?_⟩
    have e : ((s.mt.setState m .UNLOCKED).mutex j).id = (s.mt.mutex j).id := by simp
    exact (hold u _).2 ⟨fun he => hjm (h.inj j m hj' (e ▸ he)), e.symm ▸ hu⟩
  · intro u id hu
    obtain ⟨hid, hu'⟩ := (hold u id).1 hu
    obtain ⟨m', hm', h0, hl⟩ := h.held u id hu'
    exact ⟨m', by simpa [Sys.setHolds] using hm', h0, (hst m').2 ⟨fun e => hid (e ▸ hm'.symm), hl⟩⟩
  · intro u u' id h1 h2
    exact h.excl u u' id ((hold u id).1 h1).2 ((hold u' id).1 h2).2
  · intro u id m' b hw
    simpa [Sys.setHolds] using h.wait u id m' b hw

section

omit [DecidableEq T]

/-- Under the guard `mutex_init` takes a slot that was never given out: a given-out slot in state
`LOCKED` has a holder. -/
theorem init_virgin (h : Inv s) {m : Mslot} (hm : s.mt.findLocked = some m)
    (hfree : ∀ t, s.holds t (s.mt.mutex m).id = false) : (s.mt.mutex m).id = 0#32 := by
  by_contra hne
  obtain ⟨t, ht⟩ := h.owner m hne (Mtable.findLocked_some hm)
  simp [hfree t] at ht

theorem nextmid_lt (h : Inv s) : s.mt.nextmid.toNat ≤ 6 := by
  have hc := Finset.card_le_univ (given s.mt)
  have : Fintype.card Mslot = 5 := rfl
  have := h.count
  omega

theorem inv_init (h : Inv s) {m : Mslot} (hm : s.mt.findLocked = some m)
    (hfree : ∀ t, s.holds t (s.mt.mutex m).id = false) (hwait : ∀ t, (s.thr t).slot ≠ some m) :
    Inv { s with mt := ⟨update s.mt.mutex m ⟨s.mt.nextmid, .UNLOCKED⟩, s.mt.nextmid + 1⟩ } := by
  have h0 := init_virgin h hm hfree
  have hle := nextmid_lt h
  have hcount := h.count
  have hpos : s.mt.nextmid ≠ 0#32 := by
    intro e; rw [e] at hcount; simp at hcount; omega
  have hnext : (s.mt.nextmid + 1).toNat = s.mt.nextmid.toNat + 1 := by
    rw [BitVec.toNat_add]; simp; omega
  have hgiven : given ⟨update s.mt.mutex m ⟨s.mt.nextmid, .UNLOCKED⟩, s.mt.nextmid + 1⟩ =
      insert m (given s.mt) := by
    ext j
    by_cases e : j = m
    · subst e; simp [given, hpos]
    · simp [given, e]
  have hm' : m ∉ given s.mt := by simp [given, h0]
  have hnew : ∀ j, (s.mt.mutex j).id ≠ 0#32 → (s.mt.mutex j).id ≠ s.mt.nextmid := by
    intro j hj e
    have := h.below j hj
    rw [e] at this
    omega
  refine ⟨?_, ?_, ?_, ?_, ?_, ?_, h.excl, ?_⟩
  · intro j hj
    by_cases e : j = m
    · subst e; simp [hpos] at hj
    · simp only [update_of_ne e] at hj ⊢; exact h.virgin j hj
  · rw [hgiven, Finset.card_insert_of_notMem hm', hnext]; omega
  · intro j hj
    by_cases e : j = m
    · subst e
      simp only [update_self]
      omega
    · simp only [update_of_ne e] at hj ⊢
      have := h.below j hj
      omega
  · intro j j' hj hjj
    by_cases e : j = m <;> by_cases e' : j' = m
    · rw [e, e']
    · subst e
      simp only [update_self, update_of_ne e'] at hjj
      exact absurd hjj.symm (hnew j' (fun hz => hpos (hjj.trans hz)))
    · subst e'
      simp only [update_self, update_of_ne e] at hj hjj
      exact absurd hjj (hnew j hj)
    · simp only [update_of_ne e, update_of_ne e'] at hj hjj
      exact h.inj j j' hj hjj
  · intro j hj hl
    by_cases e : j = m
    · subst e; simp at hl
    · simp only [update_of_ne e] at hj hl ⊢; exact h.owner j hj hl
  · intro u id hu
    obtain ⟨m', hid, hne, hl⟩ := h.held u id hu
    have e : m' ≠ m := by
      intro e; subst e; exact hne (hid ▸ h0)
    exact ⟨m', by simpa [e] using hid, hne, by simpa [e] using hl⟩
  · intro u id m' b hw
    have e : m' ≠ m := by
      intro e; subst e; exact hwait u (by rw [hw]; rfl)
    simpa [e] using h.wait u id m' b hw

end

/-! ### The steps -/

theorem inv_enter (h : Inv s) (t : T) (m : Mslot) : Inv (s.enter t (s.mt.mutex m).id m) := by
  unfold Sys.enter
  split
  · exact inv_setThr h t _ (fun id m' b e => by cases e; rfl)
  next hu =>
    have h' := inv_setThr (inv_lock h t m hu) t .idle (fun id m' b e => by cases e)
    exact h'

theorem inv_step {s' : Sys T} {a : Act T} (h : Inv s) (hd : Disciplined s a) (hf : InitTakesFree s a)
    (hs : s.step a = some s') : Inv s' := by
  cases a with
  | init t =>
    simp only [Sys.step, Mtable.mutexInit] at hs
    split at hs
    · cases hm : s.mt.findLocked with
      | none => rw [hm] at hs; cases hs; exact h
      | some m => rw [hm] at hs; cases hs; exact inv_init h hm (hf m hm).1 (hf m hm).2
    · cases hs
  | lock t id =>
    simp only [Sys.step] at hs
    split at hs
    · cases hm : s.mt.findId id with
      | none => rw [hm] at hs; cases hs; exact h
      | some m =>
        rw [hm] at hs; cases hs
        rw [← Mtable.findId_some hm]
        exact inv_enter h t m
    · cases hs
  | unlock t id =>
    simp only [Sys.step] at hs
    obtain ⟨m0, hid0, hne0, hl0⟩ := h.held t id hd
    split at hs
    · cases hm : s.mt.findId id with
      | none => exact absurd hid0 (Mtable.findId_none hm m0)
      | some m =>
        have hid := Mtable.findId_some hm
        rw [h.inj m0 m (hid0 ▸ hne0) (hid0.trans hid.symm)] at hl0
        simp only [hm, hl0, if_true, Option.some.injEq] at hs
        subst hs
        subst hid
        exact inv_wakeup1 (inv_unlock h t m hd) m
    · cases hs
  | resume t =>
    simp only [Sys.step] at hs
    split at hs
    next id m hw =>
      cases hs
      rw [← h.wait t id m false hw]
      exact inv_enter h t m
    · cases hs
  | kill t =>
    simp only [Sys.step] at hs
    split at hs
    next id m hw =>
      cases hs
      apply inv_setThr h t _
      intro id' m' b e
      cases e
      exact h.wait t _ _ true hw
    · cases hs

/-- **Mutual exclusion, and what it takes.** In every run in which threads unlock only what they
hold and no `mutex_init` takes a slot that is held or waited for, no id ever has two holders. -/
theorem mutex_exclusion {s : Sys T} (h : (machine T).ReachBy (fun s a => Disciplined s a ∧ InitTakesFree s a) s) :
    ∀ t t' id, s.holds t id = true → s.holds t' id = true → t = t' := by
  have hinv : Inv s := h.inv (I := Inv) (fun _ hs => hs ▸ inv_boot)
    (fun _ _ _ hi hg hs => inv_step hi hg.1 hg.2 hs)
  exact hinv.excl

/-- The guarded runs include real use: two mutexes made, one taken, contended and handed over. -/
def handover : List (Act (Fin 2)) :=
  [.init 0, .init 0, .lock 0 1, .lock 1 1, .unlock 0 1, .resume 1]

theorem mutex_exclusion_handover :
    ∃ s, (machine (Fin 2)).ReachBy (fun s a => Disciplined s a ∧ InitTakesFree s a) s ∧
      s.holds 1 1 = true ∧ ∀ t t' id, s.holds t id = true → s.holds t' id = true → t = t' := by
  obtain ⟨s, hs, hp⟩ := Machine.exists_reachBy (M := machine (Fin 2))
    (G := fun s a => Disciplined s a ∧ InitTakesFree s a) rfl handover (fun s => s.holds 1 1) (by decide)
  exact ⟨s, hs, hp, mutex_exclusion hs⟩

/-- Thread 0 holds id 1 and thread 1 waits for it on slot 0; `mutex_init` takes slot 0 from under
them (it is the first `LOCKED` slot) and calls it id 2; thread 2 locks and unlocks id 2, which
wakes thread 1, and thread 1 finds the slot unlocked and returns 0 from `mutex_lock(1)`. -/
def stolen : List (Act (Fin 3)) :=
  [.init 0, .lock 0 1, .lock 1 1, .init 0, .lock 2 2, .unlock 2 2, .resume 1]

theorem two_holders_of_one_id :
    ∃ s, (machine (Fin 3)).ReachBy Disciplined s ∧ s.holds 0 1 = true ∧ s.holds 1 1 = true := by
  obtain ⟨s, hs, hp⟩ := Machine.exists_reachBy (M := machine (Fin 3)) (G := Disciplined) rfl stolen
    (fun s => s.holds 0 1 && s.holds 1 1) (by decide)
  exact ⟨s, hs, by simpa using hp⟩

end Xv6.Mutex
