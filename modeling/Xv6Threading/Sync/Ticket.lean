import Mathlib.Algebra.Order.Ring.Int
import Mathlib.Data.Fintype.Card
import Xv6Threading.Lib.Machine

/-!
# The locks of user threads (`ulib.c:139-165`, `x86.h:151-173`)

| here | there |
| --- | --- |
| `nextTicket`, `nowServing` | `next_ticket`, `now_serving` of `struct lock` (`user.h:50`) |
| `Act.take` | `read_and_increment(&lock->next_ticket)`, one `lock; xaddl` |
| `Act.spin` | one test of `lock->now_serving != me` |
| `Act.load`, `Act.store` | the two halves of `lock->now_serving += 1` |

Tickets are compared as 32-bit words, so that it does not matter that `me` and `now_serving` are signed.
Both counters wrap around. `taken` and `entered` are history: who has drawn a ticket, and who has got past
the loop.
-/

namespace Xv6.Ticket

open Function

inductive Pc where
  | out
  | spin (me : BitVec 32)
  | inside
  /-- In `ticket_release`, with the value of `now_serving` it has read. -/
  | release (v : BitVec 32)
deriving DecidableEq

structure Sys (T : Type) where
  nextTicket : BitVec 32
  nowServing : BitVec 32
  pc : T → Pc
  taken : List T
  entered : List T

inductive Act (T : Type) where
  | take (t : T)
  | spin (t : T)
  | load (t : T)
  | store (t : T)

variable {T : Type}

namespace Sys

variable [DecidableEq T] (s : Sys T)

def take (t : T) : Option (Sys T) :=
  match s.pc t with
  | .out =>
    some { s with
      nextTicket := s.nextTicket + 1
      pc := update s.pc t (.spin s.nextTicket)
      taken := s.taken ++ [t] }
  | .spin _ | .inside | .release _ => none

def spin (t : T) : Option (Sys T) :=
  match s.pc t with
  | .spin me =>
    if s.nowServing ≠ me then some s
    else some { s with pc := update s.pc t .inside, entered := s.entered ++ [t] }
  | .out | .inside | .release _ => none

def load (t : T) : Option (Sys T) :=
  match s.pc t with
  | .inside => some { s with pc := update s.pc t (.release s.nowServing) }
  | .out | .spin _ | .release _ => none

def store (t : T) : Option (Sys T) :=
  match s.pc t with
  | .release v => some { s with nowServing := v + 1, pc := update s.pc t .out }
  | .out | .spin _ | .inside => none

def step : Act T → Option (Sys T)
  | .take t => s.take t
  | .spin t => s.spin t
  | .load t => s.load t
  | .store t => s.store t

def boot : Sys T := ⟨0, 0, fun _ => .out, [], []⟩

end Sys

def machine (T : Type) [DecidableEq T] : Machine (Sys T) (Act T) where
  init s := s = .boot
  step := Sys.step

/-- Past the loop of `ticket_acquire`, and `ticket_release` is not done. -/
def Pc.holds : Pc → Bool
  | .inside | .release _ => true
  | .out | .spin _ => false

/-! ## The invariant -/

/-- The threads in the loop, first come first, and the one that is past it. Their tickets are the serial
numbers after `entered`, modulo 2^32. -/
structure Line (s : Sys T) (queue : List T) (holder : Option T) : Prop where
  taken : s.taken = s.entered ++ queue
  nodup : queue.Nodup
  next : s.nextTicket = BitVec.ofNat 32 s.taken.length
  waits : ∀ k (h : k < queue.length), s.pc queue[k] = .spin (BitVec.ofNat 32 (s.entered.length + k))
  queued : ∀ t me, s.pc t = .spin me → t ∈ queue
  holds : ∀ t, (s.pc t).holds = true ↔ holder = some t
  serving : BitVec.ofNat 32 s.entered.length = s.nowServing + BitVec.ofNat 32 holder.toList.length
  loaded : ∀ t v, s.pc t = .release v → v = s.nowServing

theorem line_boot : Line (.boot : Sys T) [] none := by
  refine ⟨rfl, List.nodup_nil, rfl, ?_, ?_, ?_, rfl, ?_⟩
  · intro k h
    cases h
  · rintro t me ⟨⟩
  · intro t
    simp [Sys.boot, Pc.holds]
  · rintro t v ⟨⟩

theorem ofNat_eq {a b : Nat} (h : BitVec.ofNat 32 a = BitVec.ofNat 32 b) (ha : a < 2 ^ 32) (hb : b < 2 ^ 32) :
    a = b := by
  have := congrArg BitVec.toNat h
  rwa [BitVec.toNat_ofNat, BitVec.toNat_ofNat, Nat.mod_eq_of_lt ha, Nat.mod_eq_of_lt hb] at this

variable [DecidableEq T] {s s' : Sys T} {queue : List T} {holder : Option T} {t : T}

theorem Line.take (h : Line s queue holder) (hs : s.take t = some s') : Line s' (queue ++ [t]) holder := by
  unfold Sys.take at hs
  split at hs <;> cases hs
  rename_i hpc
  have hout : ∀ k (hk : k < queue.length), queue[k] ≠ t := by
    intro k hk e
    have := h.waits k hk
    rw [e, hpc] at this
    cases this
  refine ⟨by simp [h.taken], ?_, ?_, ?_, ?_, ?_, h.serving, ?_⟩
  · rw [List.nodup_append]
    refine ⟨h.nodup, List.nodup_singleton t, ?_⟩
    rintro a ha b hb rfl
    obtain ⟨k, hk, rfl⟩ := List.getElem_of_mem ha
    exact hout k hk (List.mem_singleton.1 hb)
  · simp only [h.next, List.length_append, List.length_singleton, BitVec.ofNat_add]
    rfl
  · intro k hk
    by_cases hlt : k < queue.length
    · simp only [List.getElem_append_left hlt, update_of_ne (hout k hlt)]
      exact h.waits k hlt
    obtain rfl : k = queue.length := by
      rw [List.length_append, List.length_singleton] at hk
      omega
    simp [h.next, h.taken]
  · intro u me hu
    by_cases e : u = t
    · simp [e]
    · simp only [update_of_ne e] at hu
      exact List.mem_append_left _ (h.queued u me hu)
  · intro u
    rw [← h.holds u]
    by_cases e : u = t
    · subst e
      simp [hpc, Pc.holds]
    · simp [e]
  · intro u v hu
    by_cases e : u = t
    · subst e
      simp at hu
    · exact h.loaded u v (by simpa [e] using hu)

/-- The first in the line gets in, when nobody is inside. -/
theorem Line.enter (h : Line s (t :: queue) none) :
    Line { s with pc := update s.pc t .inside, entered := s.entered ++ [t] } queue (some t) := by
  obtain ⟨hnot, hnd⟩ := List.nodup_cons.1 h.nodup
  refine ⟨by simp [h.taken], hnd, h.next, ?_, ?_, ?_, ?_, ?_⟩
  · intro k hk
    have hne : queue[k] ≠ t := by
      intro e
      exact hnot (e ▸ List.getElem_mem hk)
    simp only [update_of_ne hne]
    have := h.waits (k + 1) (by simpa using hk)
    rw [List.getElem_cons_succ] at this
    rw [this, List.length_append, List.length_singleton, Nat.add_assoc, Nat.add_comm 1]
  · intro u me hu
    have e : u ≠ t := by
      rintro rfl
      simp at hu
    simp only [update_of_ne e] at hu
    exact (List.mem_cons.1 (h.queued u me hu)).resolve_left e
  · intro u
    by_cases e : u = t
    · subst e
      simp [Pc.holds]
    · have := h.holds u
      simp only [reduceCtorEq, iff_false] at this
      simp [e, this, Ne.symm e]
  · have := h.serving
    simp only [Option.toList_none, List.length_nil] at this
    simp only [List.length_append, List.length_singleton, BitVec.ofNat_add, this, Option.toList_some]
    simp
  intro u v hu
  have e : u ≠ t := by
    rintro rfl
    simp at hu
  have := (h.holds u).1 (by simp only [update_of_ne e] at hu; rw [hu]; rfl)
  cases this

omit [DecidableEq T] in
/-- The ticket that is served is that of the first in the line: two waiting threads have tickets that differ
by less than 2^32. -/
theorem Line.first [Fintype T] (h : Line s queue holder) (hT : Fintype.card T < 2 ^ 32)
    (hpc : s.pc t = .spin s.nowServing) : holder = none ∧ ∃ rest, queue = t :: rest := by
  obtain ⟨k, hk, rfl⟩ := List.getElem_of_mem (h.queued t _ hpc)
  have hcard : queue.length ≤ Fintype.card T := h.nodup.length_le_card
  have hme := h.waits k hk
  rw [hpc, Pc.spin.injEq] at hme
  have hser := h.serving
  have hhold : holder.toList.length ≤ 1 := by cases holder <;> simp
  have hsum : BitVec.ofNat 32 (k + holder.toList.length) = BitVec.ofNat 32 0 := by
    rw [hme, BitVec.ofNat_add, BitVec.add_assoc, ← BitVec.ofNat_add] at hser
    rwa [BitVec.self_eq_add_right] at hser
  have hzero := ofNat_eq hsum (by omega) (by decide)
  have hk0 : k = 0 := by omega
  have hh0 : holder.toList.length = 0 := by omega
  subst hk0
  refine ⟨by simpa using hh0, queue.tail, ?_⟩
  cases queue with
  | nil => cases hk
  | cons a rest => rfl

theorem Line.spin [Fintype T] (h : Line s queue holder) (hT : Fintype.card T < 2 ^ 32)
    (hs : s.spin t = some s') : ∃ queue holder, Line s' queue holder := by
  unfold Sys.spin at hs
  split at hs
  next me hpc =>
    split at hs <;> cases hs
    · exact ⟨queue, holder, h⟩
    rename_i hme
    rw [← not_not.1 hme] at hpc
    obtain ⟨rfl, rest, rfl⟩ := h.first hT hpc
    exact ⟨rest, some t, h.enter⟩
  all_goals cases hs

theorem Line.load (h : Line s queue holder) (hs : s.load t = some s') : Line s' queue holder := by
  unfold Sys.load at hs
  split at hs <;> cases hs
  rename_i hpc
  have hne : ∀ u me, s.pc u = .spin me → u ≠ t := by
    rintro u me hu rfl
    rw [hpc] at hu
    cases hu
  refine ⟨h.taken, h.nodup, h.next, ?_, ?_, ?_, h.serving, ?_⟩
  · intro k hk
    simp only [update_of_ne (hne _ _ (h.waits k hk))]
    exact h.waits k hk
  · intro u me hu
    by_cases e : u = t
    · subst e
      simp at hu
    · exact h.queued u me (by simpa [e] using hu)
  · intro u
    rw [← h.holds u]
    by_cases e : u = t
    · subst e
      simp [hpc, Pc.holds]
    · simp [e]
  · intro u v hu
    by_cases e : u = t
    · subst e
      simpa using hu.symm
    · exact h.loaded u v (by simpa [e] using hu)

theorem Line.store (h : Line s queue holder) (hs : s.store t = some s') : Line s' queue none := by
  unfold Sys.store at hs
  split at hs <;> cases hs
  rename_i v hpc
  have hv := h.loaded t v hpc
  have ht : holder = some t := (h.holds t).1 (by rw [hpc]; rfl)
  subst ht
  have hne : ∀ u me, s.pc u = .spin me → u ≠ t := by
    rintro u me hu rfl
    rw [hpc] at hu
    cases hu
  refine ⟨h.taken, h.nodup, h.next, ?_, ?_, ?_, ?_, ?_⟩
  · intro k hk
    simp only [update_of_ne (hne _ _ (h.waits k hk))]
    exact h.waits k hk
  · intro u me hu
    by_cases e : u = t
    · subst e
      simp at hu
    · exact h.queued u me (by simpa [e] using hu)
  · intro u
    by_cases e : u = t
    · subst e
      simp [Pc.holds]
    · have := h.holds u
      simp only [Option.some.injEq, Ne.symm e, iff_false] at this
      simp [e, this]
  · rw [hv]
    simpa using h.serving
  intro u w hu
  have e : u ≠ t := by
    rintro rfl
    simp at hu
  have := (h.holds u).1 (by simp only [update_of_ne e] at hu; rw [hu]; rfl)
  exact absurd (Option.some.inj this).symm e

/-- **Mutual exclusion and order.** However many threads there are, below 2^32, and however often the counters
wrap around: at most one is between the loop of its `ticket_acquire` and the end of its `ticket_release`, and
threads get past the loop in the order in which they drew their tickets. -/
theorem ticket_lock [Fintype T] (hT : Fintype.card T < 2 ^ 32) (h : (machine T).Reach s) :
    (∀ t u, (s.pc t).holds = true → (s.pc u).holds = true → t = u) ∧ s.entered <+: s.taken := by
  have hline : ∃ queue holder, Line s queue holder := by
    refine Machine.Reach.inv (I := fun s => ∃ queue holder, Line s queue holder) ?_ ?_ h
    · rintro _ rfl
      exact ⟨[], none, line_boot⟩
    rintro s a s' ⟨queue, holder, hl⟩ hs
    cases a with
    | take t => exact ⟨_, _, hl.take hs⟩
    | spin t => exact hl.spin hT hs
    | load t => exact ⟨_, _, hl.load hs⟩
    | store t => exact ⟨_, _, hl.store hs⟩
  obtain ⟨queue, holder, hl⟩ := hline
  constructor
  · intro t u ht hu
    have e := (hl.holds t).1 ht
    rw [(hl.holds u).1 hu] at e
    exact (Option.some.inj e).symm
  · rw [hl.taken]
    exact List.prefix_append _ _

/-- Two threads draw tickets; the first is served, releases, and the second gets in. -/
def handOver (t u : T) : List (Act T) :=
  [.take t, .take u, .spin u, .spin t, .load t, .store t, .spin u]

theorem ticket_lock_handOver : ∃ s, (machine (Fin 2)).Reach s ∧ s.taken = [0, 1] ∧ s.entered = [0, 1] ∧
    s.pc 1 = .inside ∧ (∀ t u, (s.pc t).holds = true → (s.pc u).holds = true → t = u) := by
  obtain ⟨s, hs, hp⟩ := Machine.exists_reachBy (M := machine (Fin 2)) (G := fun _ _ => True) rfl (handOver 0 1)
    (fun s => s.taken = [0, 1] ∧ s.entered = [0, 1] ∧ s.pc 1 = .inside) (by decide)
  obtain ⟨h1, h2, h3⟩ := of_decide_eq_true hp
  exact ⟨s, hs, h1, h2, h3, (ticket_lock (by decide) hs).1⟩

end Xv6.Ticket

/-! ## Without tickets -/

namespace Xv6.TestAndSet

open Function

inductive Pc where
  | out
  | spin
  | inside
deriving DecidableEq

structure Sys (T : Type) where
  locked : BitVec 32
  pc : T → Pc

/-- `lock_acquire` is called, its loop does one `test_and_set`, and `lock_release`. -/
inductive Act (T : Type) where
  | acquire (t : T)
  | spin (t : T)
  | release (t : T)

variable {T : Type} [DecidableEq T]

def Sys.step (s : Sys T) : Act T → Option (Sys T)
  | .acquire t => if s.pc t = .out then some { s with pc := update s.pc t .spin } else none
  | .spin t => if s.pc t = .spin then some ⟨1, if s.locked = 1 then s.pc else update s.pc t .inside⟩ else none
  | .release t => if s.pc t = .inside then some ⟨0, update s.pc t .out⟩ else none

def machine (T : Type) [DecidableEq T] : Machine (Sys T) (Act T) where
  init s := s = ⟨0, fun _ => .out⟩
  step := Sys.step

structure Held (s : Sys T) (holder : Option T) : Prop where
  locked : s.locked = holder.elim 0 fun _ => 1
  inside : ∀ t, s.pc t = .inside ↔ holder = some t

variable {s s' : Sys T} {holder : Option T}

theorem Held.step {a : Act T} (h : Held s holder) (hs : s.step a = some s') : ∃ holder, Held s' holder := by
  obtain ⟨hl, hp⟩ := h
  cases a <;> simp only [Sys.step, Option.ite_none_right_eq_some, Option.some.injEq] at hs <;> obtain ⟨ht, rfl⟩ := hs
  case acquire t =>
    refine ⟨holder, hl, fun u => ?_⟩
    by_cases e : u = t
    · subst e
      simp [← hp, ht]
    · simp [e, hp]
  case spin t =>
    cases holder with
    | some u => exact ⟨some u, rfl, by simpa [hl] using hp⟩
    | none =>
      refine ⟨some t, rfl, fun u => ?_⟩
      by_cases e : u = t
      · simp [e, hl]
      · simp [e, hl, hp, Ne.symm e]
  case release t =>
    refine ⟨none, rfl, fun u => ?_⟩
    by_cases e : u = t
    · simp [e]
    · simpa [e, (hp t).1 ht, Ne.symm e] using hp u

/-- **Mutual exclusion without tickets.** At most one thread is past its `lock_acquire` and has not called
`lock_release`; `locked` is 1 while one is, and while none is, whoever spins gets in with its next `test_and_set`. -/
theorem lock_exclusion (h : (machine T).Reach s) : (∀ t u, s.pc t = .inside → s.pc u = .inside → t = u) ∧
    (s.locked = 1 ↔ ∃ t, s.pc t = .inside) ∧
    ∀ t, s.pc t = .spin → (∀ u, s.pc u ≠ .inside) → ∃ s', s.step (.spin t) = some s' ∧ s'.pc t = .inside := by
  obtain ⟨holder, hl, hp⟩ : ∃ holder, Held s holder := by
    refine h.inv (I := fun s => ∃ holder, Held s holder) ?_ fun s a s' ⟨_, hh⟩ hs => hh.step hs
    rintro _ rfl
    exact ⟨none, rfl, by simp⟩
  refine ⟨fun t u ht hu => ?_, ?_, fun t ht hfree => ?_⟩
  · have := (hp t).1 ht
    rw [(hp u).1 hu] at this
    exact (Option.some.inj this).symm
  · cases holder <;> simp [hl, hp]
  · cases holder with
    | some u => cases hfree u ((hp u).2 rfl)
    | none => exact ⟨_, if_pos ht, by simp [hl]⟩

theorem lock_exclusion_two : ∃ s, (machine (Fin 2)).Reach s ∧ s.pc 0 = .inside ∧ s.pc 1 ≠ .inside := by
  obtain ⟨s, hs, hp⟩ := Machine.exists_reachBy (M := machine (Fin 2)) (G := fun _ _ => True) rfl
    [.acquire 0, .acquire 1, .spin 0, .spin 1] (fun s => s.pc 0 = .inside) (by decide)
  have h0 := of_decide_eq_true hp
  exact ⟨s, hs, h0, fun h1 => absurd ((lock_exclusion hs).1 0 1 h0 h1) (by decide)⟩

end Xv6.TestAndSet
