import Xv6Threading.Proc.Invariant

/-!
# `kill` and the slots it can hit (`proc.c:602-619`)

`kill` compares `pid` with every slot of the table, whatever its state, and nothing clears
`killed` when `allocproc` takes a slot: only `wait` and `join` do, when they free it. So a mark left
on a free slot is found by the next process made in it. Free slots do carry pids: 0 in the initial
table and after `wait` and `join`, and the pid of the last attempt after a failed `allocproc` or
`fork`.
-/

namespace Xv6

variable {ncpu : Nat} {k k' : Kernel ncpu} {pt : Ptable} {pid : BitVec 32}

/-- `kill(pid)` finds `pid` in the slot of a process that has been published, or nowhere. -/
def KillsPublished (k : Kernel ncpu) : Act ncpu → Prop
  | .kill pid => ∀ q ∈ k.pt.findPid pid, (k.pt q).state ≠ .UNUSED ∧ (k.pt q).state ≠ .EMBRYO
  | .on _ _ | .dispatch _ _ _ | .wakeup _ | .wakeupEntry _ _ | .changeTickets _ _ => True

instance (k : Kernel ncpu) : (a : Act ncpu) → Decidable (KillsPublished k a)
  | .kill pid => inferInstanceAs
    (Decidable (∀ q ∈ k.pt.findPid pid, (k.pt q).state ≠ .UNUSED ∧ (k.pt q).state ≠ .EMBRYO))
  | .on _ _ | .dispatch _ _ _ | .wakeup _ | .wakeupEntry _ _ | .changeTickets _ _ =>
    inferInstanceAs (Decidable True)

/-- Free slots and slots being made carry no mark. -/
def Unmarked (pt : Ptable) : Prop :=
  ∀ q, (pt q).state = .UNUSED ∨ (pt q).state = .EMBRYO → (pt q).killed = false

theorem Unmarked.modify (h : Unmarked pt) {q : Slot} {f : Proc → Proc}
    (hf : (f (pt q)).state = .UNUSED ∨ (f (pt q)).state = .EMBRYO → (f (pt q)).killed = false) :
    Unmarked (pt.modify q f) := by
  intro r hr
  rw [Ptable.modify_apply] at hr ⊢
  split at hr
  next e =>
    rw [if_pos e]
    exact hf hr
  next e =>
    rw [if_neg e]
    exact h r hr

/-- Waking sleepers and turning processes into zombies frees no slot. -/
theorem Unmarked.of_busy {pt pt' : Ptable} (h : Unmarked pt) (hk : ∀ q, (pt' q).killed = (pt q).killed)
    (hst : ∀ q, (pt' q).state = (pt q).state ∨ (pt' q).state = .RUNNABLE ∨ (pt' q).state = .ZOMBIE) :
    Unmarked pt' := by
  intro q hq
  rw [hk]
  rcases hst q with e | e | e
  · exact h q (e ▸ hq)
  all_goals simp [e] at hq

theorem Unmarked.kill (h : Unmarked pt)
    (hg : ∀ q ∈ pt.findPid pid, (pt q).state ≠ .UNUSED ∧ (pt q).state ≠ .EMBRYO) : Unmarked (pt.kill pid).1 := by
  unfold Ptable.kill
  split
  next q hq =>
    obtain ⟨h1, h2⟩ := hg q hq
    apply h.modify
    intro hst
    simp only [Ptable.killed] at hst
    split at hst <;> simp_all
  · exact h

theorem Unmarked.exit (h : Unmarked pt) (p init : Slot) : Unmarked (pt.exitTable p init) := by
  apply h.of_busy
  · intro q
    rw [Ptable.exitTable_frame]
  intro q
  by_cases e : q = p
  · subst e; simp
  · rw [Ptable.exitTable_state _ _ _ e]
    split <;> simp

theorem unmarked_move {a : Act ncpu} (hi : Inv k) (h : Unmarked k.pt) (hg : KillsPublished k a)
    (hm : Move k a k') : Unmarked k'.pt := by
  cases hm with
  | full hc => exact h
  | alloc hc hpc hf m ho => exact h.modify fun _ => h _ (.inl (Ptable.freeSlot_some hf))
  | kstack hc hpc => exact h
  | discard hc hmk had d => exact h.modify fun _ => h _ (.inr (hi.make.embryo _ _ hmk))
  | fill hc hpc d us tk htk => exact h.modify fun hst => h _ hst
  | publish hc hpc tk hpc' htk => exact h.modify fun hst => by simp at hst
  | refs hc hpc => exact h.modify fun hst => h _ hst
  | exit hc hpc hne =>
    exact h.exit _ _
  | reap hc hpc hpar hz => exact h.modify fun _ => rfl
  | giveUp hc hpc => exact h
  | sleep hc hpc chan hmk hch hw hj ho => exact h.modify fun hst => by simp at hst
  | yield hc hs => exact h.modify fun hst => by simp at hst
  | exec hc hpc d sz ho => exact h.modify fun hst => h _ hst
  | @dispatch c p draw hc hr hw =>
    obtain ⟨-, -, r3, r4, -, -⟩ := resume_spec { k with
      pt := k.pt.modify p fun q => { q with state := .RUNNING }
      cpu := Function.update k.cpu c (some p) } p
    intro q hq
    by_cases e : q = p
    · subst e
      rw [r4] at hq
      simp at hq
    · rw [(r3 q e).1] at hq ⊢
      exact (h.modify (fun hst => by simp at hst)) q hq
  | wakeup chan =>
    apply h.of_busy
    · intro q
      simp only [Ptable.wakeup1_eq]
    · intro q
      simp only [Ptable.wakeup1_eq]
      split <;> simp
  | wakeupEntry m q =>
    unfold Kernel.wakeupEntry
    split
    · exact h.modify fun hst => by simp at hst
    · exact h
  | kill pid => exact h.kill hg
  | changeTickets pid tk =>
    unfold Ptable.changeTickets
    split
    · exact h.modify fun hst => h _ hst
    · exact h

theorem unmarked_boot (d : Pgdir) : Unmarked (.boot d : Kernel ncpu).pt := by
  intro q _
  by_cases e : q = 0 <;> simp [Kernel.boot, e, Proc.zero]

theorem unmarked_reach (h : (kernel ncpu).ReachBy KillsPublished k) : Inv k ∧ Unmarked k.pt := by
  refine h.inv (I := fun k => Inv k ∧ Unmarked k.pt) ?_ ?_
  · rintro _ ⟨d, rfl⟩
    exact ⟨inv_boot d, unmarked_boot d⟩
  · rintro k a k' ⟨hi, hu⟩ hg hs
    exact ⟨inv_move hi (move_of_step hs), unmarked_move hi hu hg (move_of_step hs)⟩

/-- What `kill(pid)` should do: return 0 exactly when some slot in use carries `pid`, and then
change only such a slot; otherwise return -1 and change nothing. -/
def KillSpec (pt : Ptable) (pid : BitVec 32) : Prop :=
  ((pt.kill pid).2 = 0 ↔ ∃ q, (pt q).state ≠ .UNUSED ∧ (pt q).pid = pid) ∧
  ((pt.kill pid).2 = 0 → ∃ q, (pt q).state ≠ .UNUSED ∧ (pt q).pid = pid ∧ ∀ r, r ≠ q → (pt.kill pid).1 r = pt r) ∧
  ((pt.kill pid).2 ≠ 0 → (pt.kill pid).2 = -1 ∧ (pt.kill pid).1 = pt)

theorem killSpec_of_found (h : ∀ q ∈ pt.findPid pid, (pt q).state ≠ .UNUSED) : KillSpec pt pid := by
  unfold KillSpec Ptable.kill
  split
  next q hq =>
    have hpid : (pt q).pid = pid := by simpa using (Fin.find?_eq_some_iff.1 hq).1
    exact ⟨⟨fun _ => ⟨q, h q hq, hpid⟩, fun _ => rfl⟩, fun _ => ⟨q, h q hq, hpid,
      fun r hr => Ptable.modify_ne _ _ hr⟩, fun h0 => absurd rfl h0⟩
  next hq =>
    have hno : ∀ q, (pt q).pid ≠ pid := fun q => by simpa using Fin.find?_eq_none_iff.1 hq q
    exact ⟨⟨fun h0 => by simp at h0, fun ⟨q, _, hpid⟩ => absurd hpid (hno q)⟩, fun h0 => by simp at h0,
      fun _ => ⟨rfl, rfl⟩⟩

theorem publish_inversion {c : Fin ncpu} (h : k.step (.on c .publish) = some k') :
    ∃ p m np, k.cpu c = some p ∧ k.pc p = .publish m np ∧
      k'.pt np = { k.pt np with tickets := (k'.pt np).tickets, state := .RUNNABLE } := by
  obtain ⟨p, hc, h⟩ := Option.bind_eq_some_iff.1 h
  simp only [Kernel.op] at h
  split at h
  next np hpc =>
    cases h
    exact ⟨p, _, np, hc, hpc, by simp⟩
  next stack np hpc =>
    obtain ⟨r, -, rfl⟩ := Option.map_eq_some_iff.1 h
    exact ⟨p, _, np, hc, hpc, by simp⟩
  · cases h

/-- **What `kill` does to live processes, and what it takes.** In every run in which each `kill`
finds its pid in the slot of a published process or nowhere: in every state, `kill` of such a pid
meets its specification, and every process that `fork` or `clone` makes `RUNNABLE` is unmarked. -/
theorem kill_published (h : (kernel ncpu).ReachBy KillsPublished k) :
    (∀ pid, KillsPublished k (.kill pid) → KillSpec k.pt pid) ∧
    (∀ c k', k.step (.on c .publish) = some k' →
      ∃ p m np, k.cpu c = some p ∧ k.pc p = .publish m np ∧ (k'.pt np).state = .RUNNABLE ∧
        (k'.pt np).killed = false) := by
  obtain ⟨hi, hu⟩ := unmarked_reach h
  refine ⟨fun pid hg => killSpec_of_found fun q hq => (hg q hq).1, ?_⟩
  intro c k' hs
  obtain ⟨p, m, np, hc, hpc, hnp⟩ := publish_inversion hs
  refine ⟨p, m, np, hc, hpc, by rw [hnp], ?_⟩
  rw [hnp]
  exact hu np (.inr (hi.make.embryo p np (by rw [hpc]; rfl)))

/-- On CPU `c`, init forks, kills its child, and forks again. -/
def forkKillFork (c : Fin 1) : List (Act 1) :=
  [.dispatch c 0 0, .on c .fork, .on c (.kalloc true), .on c (.copyuvm 7), .on c .publish, .kill 2,
    .on c .fork, .on c (.kalloc true), .on c (.copyuvm 8)]

/-- The killed child is marked, the one about to be published is not. -/
theorem kill_published_siblings : ∃ k k' : Kernel 1, (k.pt 1).killed = true ∧ KillSpec k.pt 2 ∧
    k.step (.on 0 .publish) = some k' ∧ (k'.pt 2).state = .RUNNABLE ∧ (k'.pt 2).killed = false := by
  obtain ⟨k, hk, hp⟩ := Machine.exists_reachBy (M := kernel 1) (G := KillsPublished) ⟨7, rfl⟩ (forkKillFork 0)
    (fun k => (k.pt 1).killed = true ∧ KillsPublished k (.kill 2) ∧ k.cpu 0 = some 0 ∧ k.pc 0 = .publish .fork 2)
    (by decide +kernel)
  obtain ⟨h1, hg, hc, hpc⟩ := of_decide_eq_true hp
  obtain ⟨hA, hB⟩ := kill_published hk
  have hs : k.step (.on 0 .publish) =
      some (((k.modify 2 fun q => { q with state := .RUNNABLE }).setPc 2 .run).setPc 0 .run) := by
    simp [Kernel.step, hc, Kernel.op, hpc]
  obtain ⟨p, m, np, hc', hpc', h2, h3⟩ := hB 0 _ hs
  obtain rfl : 0 = p := Option.some.inj (hc.symm.trans hc')
  obtain ⟨-, rfl⟩ : Maker.fork = m ∧ (2 : Slot) = np := by simpa [hpc] using hpc'
  exact ⟨k, _, h1, hA 2 hg, hs, h2, h3⟩

/-! ### A mark on a free slot

`kill(0)` finds the first free slot of the initial table, returns 0 and marks it. The next `fork`
takes that slot, and its child is born killed. -/

def killThenFork (c : Fin 1) : List (Act 1) :=
  [.dispatch c 0 0, .kill 0, .on c .fork, .on c (.kalloc true), .on c (.copyuvm 7)]

theorem kill_marks_free_slot :
    (∃ k : Kernel 1, (kernel 1).Reach k ∧ (k.pt.kill 0).2 = 0 ∧ ∀ q, (k.pt q).state ≠ .UNUSED → (k.pt q).pid ≠ 0) ∧
    ∃ k : Kernel 1, (kernel 1).Reach k ∧ ∃ k', k.step (.on 0 .publish) = some k' ∧ k.pc 0 = .publish .fork 1 ∧
      (k'.pt 1).state = .RUNNABLE ∧ (k'.pt 1).killed = true := by
  constructor
  · obtain ⟨k, hk, hp⟩ := Machine.exists_reachBy (M := kernel 1) (G := fun _ _ => True) ⟨7, rfl⟩ []
      (fun k => (k.pt.kill 0).2 = 0 ∧ ∀ q, (k.pt q).state ≠ .UNUSED → (k.pt q).pid ≠ 0) (by decide)
    exact ⟨k, hk, of_decide_eq_true hp⟩
  obtain ⟨k, hk, hp⟩ := Machine.exists_reachBy (M := kernel 1) (G := fun _ _ => True) ⟨7, rfl⟩ (killThenFork 0)
    (fun k => k.pc 0 = .publish .fork 1 ∧ (k.step (.on 0 .publish)).any
      (fun k' => decide ((k'.pt 1).state = .RUNNABLE ∧ (k'.pt 1).killed = true)) = true) (by decide +kernel)
  obtain ⟨hpc, hs⟩ := of_decide_eq_true hp
  obtain ⟨k', hk', hp'⟩ := (Option.any_eq_true _ _).1 hs
  exact ⟨k, hk, k', hk', hpc, of_decide_eq_true hp'⟩

end Xv6
