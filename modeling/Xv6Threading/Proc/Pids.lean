import Xv6Threading.Proc.Invariant

/-!
# Process ids (`proc.c:26-30`, `proc.c:85-105`)

`allocproc` takes the next pid from a counter of 32 bits and compares it with nothing. Up to the wrap of the counter all
pids in use are positive and different. The first pid that is taken after it is negative, and in the end the counter comes
back to pids that are still in use (`pid_of_init_again`).

| here | there |
| --- | --- |
| `Allocates` | a call of `fork` or `clone` in which `allocproc` finds a free slot |
| `spun n m` | init alone, after calls of `fork` that found no page for a kernel stack; `nextpid` is `n` |
-/

namespace Xv6

open Function (update update_eq_self update_idem update_of_ne update_self)

variable {ncpu : Nat} {k k' : Kernel ncpu} {c : Fin ncpu} {p np q : Slot} {a : Act ncpu}

/-- All slots in use have positive pids, and no two the same. -/
structure PidsDistinct (k : Kernel ncpu) : Prop where
  pos : ∀ q, (k.pt q).state ≠ .UNUSED → 0 < (k.pt q).pid.toInt
  inj : ∀ q r, (k.pt q).state ≠ .UNUSED → (k.pt r).state ≠ .UNUSED → (k.pt q).pid = (k.pt r).pid → q = r

def Allocates (k : Kernel ncpu) : Act ncpu → Prop
  | .on _ .fork => k.pt.freeSlot.isSome
  | .on c (.clone stack) => k.pt.freeSlot.isSome ∧ ∀ p, k.cpu c = some p → k.badStack p stack = false
  | _ => False

/-- The counter has not wrapped around. -/
def PidLeft (k : Kernel ncpu) (a : Act ncpu) : Prop := Allocates k a → 0 < k.nextpid.toInt

instance (k : Kernel ncpu) : ∀ a : Act ncpu, Decidable (Allocates k a)
  | .on _ .fork => inferInstanceAs (Decidable (_ = true))
  | .on _ (.clone _) => inferInstanceAs (Decidable (_ ∧ _))
  | .on _ (.kalloc _) | .on _ (.copyuvm _) | .on _ .share | .on _ .publish | .on _ .setRefs | .on _ .exit | .on _ .wait
  | .on _ .join | .on _ (.sleep _) | .on _ .yield | .on _ (.exec _ _) | .on _ (.growproc _) => instDecidableFalse
  | .dispatch _ _ _ | .wakeup _ | .wakeupEntry _ _ | .kill _ | .changeTickets _ _ => instDecidableFalse

instance (k : Kernel ncpu) (a : Act ncpu) : Decidable (PidLeft k a) := inferInstanceAs (Decidable (_ → _))

/-! ## What a step does to pids -/

/-- The slots in use after a step were in use before it, with the same pids. -/
def SamePids (k k' : Kernel ncpu) : Prop :=
  k'.nextpid = k.nextpid ∧ ∀ q, (k'.pt q).state ≠ .UNUSED → (k.pt q).state ≠ .UNUSED ∧ (k'.pt q).pid = (k.pt q).pid

/-- Slot `np` has been free and is in use now, with the next pid. -/
structure TakesPid (k k' : Kernel ncpu) (np : Slot) : Prop where
  next : k'.nextpid = k.nextpid + 1
  used : (k'.pt np).state ≠ .UNUSED
  pid : (k'.pt np).pid = k.nextpid
  other : ∀ q, q ≠ np → k'.pt q = k.pt q

theorem takesPid_alloc (k : Kernel ncpu) (p np : Slot) (pc : Pc) :
    TakesPid k ({ k with
      pt := k.pt.modify np fun q => { q with state := .EMBRYO, pid := k.nextpid }
      nextpid := k.nextpid + 1 }.setPc p pc) np where
  next := rfl
  used := by simp
  pid := by simp
  other q hq := by simp [Ptable.modify_ne _ _ hq]

/-- One entry changes, and keeps its pid if it stays in use. -/
theorem SamePids.of_entry (q : Slot) (hnext : k'.nextpid = k.nextpid) (hne : ∀ r, r ≠ q → k'.pt r = k.pt r)
    (hq : (k'.pt q).state ≠ .UNUSED → (k.pt q).state ≠ .UNUSED ∧ (k'.pt q).pid = (k.pt q).pid) : SamePids k k' := by
  refine ⟨hnext, fun r hr => ?_⟩
  by_cases e : r = q
  · subst e
    exact hq hr
  · rw [hne r e] at hr ⊢
    exact ⟨hr, rfl⟩

/-- Sleepers have been woken. -/
theorem SamePids.of_woken {pt : Ptable} (hw : Woken k.pt pt) (hpid : ∀ q, (pt q).pid = (k.pt q).pid) :
    SamePids k { k with pt := pt } := by
  refine ⟨rfl, fun q hq => ⟨?_, hpid q⟩⟩
  rcases hw.state q with e | ⟨e, -⟩
  · rwa [← e]
  · simp [e]

theorem SamePids.refl (k : Kernel ncpu) : SamePids k k := ⟨rfl, fun _ hq => ⟨hq, rfl⟩⟩

theorem samePids_exit (h : Inv k) (hc : k.cpu c = some p) :
    SamePids k ({ k with pt := k.pt.exitTable p k.initproc }.idle c) := by
  have hrun := h.cpu.running c p hc
  refine ⟨rfl, fun q hq => ⟨?_, ?_⟩⟩
  · by_cases e : q = p
    · subst e
      simp [hrun]
    · intro hu
      rw [Kernel.idle_pt, Ptable.exitTable_state _ _ _ e, hu] at hq
      simp at hq
  · show (k.pt.exitTable p k.initproc q).pid = _
    rw [Ptable.exitTable_frame]

theorem samePids_dispatch (hr : (k.pt p).state = .RUNNABLE) : SamePids k ({ k with
    pt := k.pt.modify p fun q => { q with state := .RUNNING }
    cpu := update k.cpu c (some p) }.resume p) := by
  obtain ⟨-, -, hne, hself, -⟩ := resume_spec { k with
    pt := k.pt.modify p fun q => { q with state := .RUNNING }
    cpu := update k.cpu c (some p) } p
  have hother : ∀ r, r ≠ p → k.pt.modify p (fun q => { q with state := .RUNNING }) r = k.pt r :=
    fun r hr => Ptable.modify_ne _ _ hr
  refine .of_entry p ?_ (fun r hr => (hne r hr).1.trans (hother r hr)) ?_
  · unfold Kernel.resume
    split <;> rfl
  · intro _
    rw [hself]
    exact ⟨by simp [hr], by simp⟩

/-- A step that does not allocate keeps all pids. -/
theorem move_samePids (h : Inv k) (hm : Move k a k') (ha : ¬ Allocates k a) : SamePids k k' := by
  cases hm with
  | alloc hc hpc hf m ho =>
    refine absurd ?_ ha
    rcases ho with rfl | ⟨stack, rfl, hgood⟩
    · exact Option.isSome_of_mem hf
    refine ⟨Option.isSome_of_mem hf, fun q hq => ?_⟩
    rw [hc] at hq
    cases hq
    exact hgood
  | full hc | kstack hc hpc | giveUp hc hpc => exact .refl k
  | @discard c p o np hc hmk had d => exact .of_entry np rfl (by simp +contextual) (by simp)
  | @reap c p o z hc hpc hpar hz =>
    exact .of_entry z rfl (by simp +contextual [Ptable.reap, Ptable.modify_ne]) (by simp [Ptable.reap])
  | @fill c p o np m hc hpc d us tk htk => exact .of_entry np rfl (by simp +contextual) (by simp)
  | @refs c p o np hc hpc => exact .of_entry np rfl (by simp +contextual) (by simp)
  | @exec c p o hc hpc d sz ho => exact .of_entry p rfl (by simp +contextual) (by simp)
  | @publish c p np m hc hpc tk pc hpc' htk =>
    have hemb := h.make.embryo p np (by rw [hpc]; rfl)
    exact .of_entry np rfl (by simp +contextual) (by simp [hemb])
  | exit hc hpc hi => exact samePids_exit h hc
  | @sleep c p o hc hpc chan pc hmk hch hw hj ho =>
    have hrun := h.cpu.running c p hc
    exact .of_entry p rfl (by simp +contextual [Kernel.sleepOn]) (by simp [Kernel.sleepOn, hrun])
  | @yield c p o hc hs =>
    have hrun := h.cpu.running c p hc
    exact .of_entry p rfl (by simp +contextual) (by simp [hrun])
  | dispatch hc hr hw => exact samePids_dispatch hr
  | wakeup chan => exact .of_woken (woken_wakeup1 _ _) fun q => by rw [Ptable.wakeup1_eq]
  | wakeupEntry m q =>
    unfold Kernel.wakeupEntry
    split
    next hq =>
      exact .of_entry q rfl (by simp +contextual) (by simp [hq.1])
    · exact .refl k
  | kill pid => exact .of_woken (woken_kill _ _) fun q => Ptable.kill_keeps Proc.pid k.pt pid q fun _ => rfl
  | changeTickets pid tk =>
    exact .of_woken (woken_changeTickets _ _ _) fun q =>
      Ptable.changeTickets_keeps Proc.pid k.pt pid tk q fun _ => rfl

theorem allocproc_takesPid (hf : k.pt.freeSlot.isSome) (p : Slot) (m : Maker) : ∃ np, TakesPid k (k.allocproc p m) np := by
  unfold Kernel.allocproc
  split
  next hn =>
    rw [hn] at hf
    cases hf
  next np _ =>
    exact ⟨np, takesPid_alloc k p np _⟩

theorem step_takesPid (hs : k.step a = some k') (ha : Allocates k a) : ∃ np, TakesPid k k' np := by
  unfold Allocates at ha
  split at ha
  · obtain ⟨p, -, hs⟩ := Option.bind_eq_some_iff.1 hs
    obtain ⟨-, rfl⟩ : k.pc p = .run ∧ _ := by simpa [Kernel.op] using hs
    exact allocproc_takesPid ha p _
  · obtain ⟨p, hc, hs⟩ := Option.bind_eq_some_iff.1 hs
    simp only [Kernel.op, ha.2 p hc] at hs
    split at hs
    · cases hs
      exact allocproc_takesPid ha.1 p _
    · cases hs
  · cases ha

/-! ## Up to the wrap -/

/-- All pids in use are below the counter. -/
structure PidInv (k : Kernel ncpu) : Prop where
  next : 0 < k.nextpid.toNat ∧ k.nextpid.toNat ≤ 2 ^ 31
  below : ∀ q, (k.pt q).state ≠ .UNUSED → 0 < (k.pt q).pid.toNat ∧ (k.pt q).pid.toNat < k.nextpid.toNat
  inj : ∀ q r, (k.pt q).state ≠ .UNUSED → (k.pt r).state ≠ .UNUSED → (k.pt q).pid = (k.pt r).pid → q = r

theorem PidInv.distinct (h : PidInv k) : PidsDistinct k := by
  refine ⟨fun q hq => ?_, h.inj⟩
  obtain ⟨hpos, hlt⟩ := h.below q hq
  have hnext := h.next.2
  rw [BitVec.toInt_eq_toNat_of_lt (by omega)]
  omega

theorem PidInv.same (h : PidInv k) (hs : SamePids k k') : PidInv k' := by
  obtain ⟨hnext, hpid⟩ := hs
  refine ⟨hnext ▸ h.next, fun q hq => ?_, fun q r hq hr heq => ?_⟩
  · obtain ⟨hu, he⟩ := hpid q hq
    rw [he, hnext]
    exact h.below q hu
  · obtain ⟨hu, he⟩ := hpid q hq
    obtain ⟨hu', he'⟩ := hpid r hr
    exact h.inj q r hu hu' (he ▸ he' ▸ heq)

theorem PidInv.takes (h : PidInv k) (ht : TakesPid k k' np) (hleft : 0 < k.nextpid.toInt) : PidInv k' := by
  have hlt : k.nextpid.toNat < 2 ^ 31 := by
    have := h.next.2
    rw [BitVec.toInt_eq_toNat_cond] at hleft
    split at hleft <;> omega
  have hnext : k'.nextpid.toNat = k.nextpid.toNat + 1 := by
    rw [ht.next, BitVec.toNat_add, Nat.mod_eq_of_lt (by simp; omega)]
    rfl
  have hpos := h.next.1
  -- the new pid is above all that were in use
  have hold : ∀ q, q ≠ np → (k'.pt q).state ≠ .UNUSED → 0 < (k'.pt q).pid.toNat ∧ (k'.pt q).pid.toNat < k.nextpid.toNat := by
    intro q hq hu
    rw [ht.other q hq] at hu ⊢
    exact h.below q hu
  refine ⟨⟨by omega, by omega⟩, fun q hq => ?_, fun q r hq hr heq => ?_⟩
  · by_cases e : q = np
    · rw [e, ht.pid]
      omega
    · have := hold q e hq
      omega
  by_cases e : q = np <;> by_cases e' : r = np
  · rw [e, e']
  · have := hold r e' hr
    rw [← heq, e, ht.pid] at this
    omega
  · have := hold q e hq
    rw [heq, e', ht.pid] at this
    omega
  · rw [ht.other q e] at hq heq
    rw [ht.other r e'] at hr heq
    exact h.inj q r hq hr heq

theorem pidInv_boot (d : Pgdir) : PidInv (.boot d : Kernel ncpu) := by
  have hzero : ∀ q, ((Kernel.boot d : Kernel ncpu).pt q).state ≠ .UNUSED → q = 0 := by
    intro q hq
    by_contra hne
    exact hq (by simp [Kernel.boot, hne, Proc.zero])
  refine ⟨⟨Nat.two_pos, by show 2 ≤ 2 ^ 31; decide⟩, fun q hq => ?_, fun q r hq hr _ => ?_⟩
  · rw [hzero q hq]
    exact ⟨by simp [Kernel.boot], by simp [Kernel.boot]⟩
  · rw [hzero q hq, hzero r hr]

theorem pidInv_reach (h : (kernel ncpu).ReachBy PidLeft k) : Inv k ∧ PidInv k := by
  refine h.inv (I := fun k => Inv k ∧ PidInv k) ?_ ?_
  · rintro _ ⟨d, rfl⟩
    exact ⟨inv_boot d, pidInv_boot d⟩
  rintro k a k' ⟨hi, hp⟩ hleft hs
  refine ⟨inv_move hi (move_of_step hs), ?_⟩
  by_cases ha : Allocates k a
  · obtain ⟨np, ht⟩ := step_takesPid hs ha
    exact hp.takes ht (hleft ha)
  · exact hp.same (move_samePids hi (move_of_step hs) ha)

/-- **Pids are unique until the counter wraps around.** In every run in which no slot is taken with a counter that is not
positive any more, all slots in use have different positive pids in every state; the pid of a process that is being made,
which `fork` and `clone` return, is then neither 0 nor -1 nor that of another process. The first slot that is taken after
that breaks this. -/
theorem pids_unique :
    (∀ k : Kernel ncpu, (kernel ncpu).ReachBy PidLeft k → PidsDistinct k ∧
      ∀ p np, (k.pc p).makes = some np → (k.pt np).pid ≠ 0 ∧ (k.pt np).pid ≠ -1 ∧
        ∀ q, (k.pt q).state ≠ .UNUSED → q ≠ np → (k.pt q).pid ≠ (k.pt np).pid) ∧
    ∀ (k k' : Kernel ncpu) (a : Act ncpu), k.step a = some k' → ¬ PidLeft k a → ¬ PidsDistinct k' := by
  refine ⟨fun k hk => ?_, fun k k' a hs hleft hd => ?_⟩
  · obtain ⟨hi, hp⟩ := pidInv_reach hk
    have hd := hp.distinct
    refine ⟨hd, fun p np hmk => ?_⟩
    have hused : (k.pt np).state ≠ .UNUSED := by simp [hi.make.embryo p np hmk]
    have hpos := hd.pos np hused
    refine ⟨fun h0 => ?_, fun h1 => ?_, fun q hq hne heq => hne (hd.inj q np hq hused heq)⟩
    · rw [h0] at hpos
      exact absurd hpos (by decide)
    · rw [h1] at hpos
      exact absurd hpos (by decide)
  · obtain ⟨ha, hneg⟩ := Classical.not_imp.1 hleft
    obtain ⟨np, ht⟩ := step_takesPid hs ha
    have := hd.pos np ht.used
    rw [ht.pid] at this
    exact hneg this

/-- Init makes its first child, with pid 2. -/
theorem pids_unique_fork : ∃ k : Kernel 1, (k.pc 0).makes = some 1 ∧ (k.pt 1).pid = 2 ∧ PidsDistinct k := by
  obtain ⟨k, hk, hp⟩ := Machine.exists_reachBy (M := kernel 1) (G := PidLeft) ⟨7, rfl⟩
    [.dispatch 0 0 0, .on 0 .fork, .on 0 (.kalloc true)]
    (fun k => (k.pc 0).makes = some 1 ∧ (k.pt 1).pid = 2) (by decide)
  obtain ⟨h1, h2⟩ := of_decide_eq_true hp
  exact ⟨k, h1, h2, (pids_unique.1 k hk).1⟩

/-! ## After the wrap -/

def spun (n m : BitVec 32) : Kernel 1 where
  pt q :=
    if q = 0 then { Proc.zero with pgdir := 7, sz := PGSIZE, state := .RUNNING, pid := 1, tickets := 1 }
    else if q = 1 then { Proc.zero with pid := m }
    else .zero
  nextpid := n
  initproc := 0
  cpu _ := some 0
  pc _ := .run

theorem freeSlot_spun (n m : BitVec 32) : (spun n m).pt.freeSlot = some 1 := by
  have hne : (1 : Slot) ≠ 0 := by decide
  rw [Ptable.freeSlot, Fin.find?_eq_some_iff]
  refine ⟨by simp only [spun, if_neg hne, if_true, Proc.zero, decide_true], fun q hq => ?_⟩
  have h0 : q = 0 := Fin.ext (Nat.lt_one_iff.1 hq)
  simp [spun, h0]

theorem allocproc_eq (hf : k.pt.freeSlot = some np) (p : Slot) (m : Maker) : k.allocproc p m = { k with
    pt := k.pt.modify np fun q => { q with state := .EMBRYO, pid := k.nextpid }
    nextpid := k.nextpid + 1 }.setPc p (.kstack m np) := by
  unfold Kernel.allocproc
  rw [hf]

theorem step_fork (hc : k.cpu c = some p) (hpc : k.pc p = .run) :
    k.step (.on c .fork) = some (k.allocproc p .fork) := by
  simp [Kernel.step, hc, Kernel.op, hpc]

/-- A `fork` without a page for the kernel stack leaves its pid in the slot. -/
theorem fork_fails (hc : k.cpu c = some p) (hpc : k.pc p = .run) (hf : k.pt.freeSlot = some np) :
    ∃ k', k.step (.on c .fork) = some k' ∧ k'.step (.on c (.kalloc false)) = some { k with
      pt := k.pt.modify np fun q => { q with pid := k.nextpid }
      nextpid := k.nextpid + 1 } := by
  have hfree := Ptable.freeSlot_some hf
  refine ⟨k.allocproc p .fork, step_fork hc hpc, ?_⟩
  rw [allocproc_eq hf]
  have hpcs : update k.pc p .run = k.pc := by rw [← hpc, update_eq_self]
  simp only [Kernel.step, Kernel.setPc, hc, Option.bind_some, Kernel.op, update_self, Bool.false_eq_true, if_false,
    Kernel.modify, update_idem, hpcs]
  refine congrArg (fun pt => some { k with pt := pt, nextpid := k.nextpid + 1 }) ?_
  funext q
  by_cases hq : q = np
  · subst hq
    simp [← hfree]
  · rw [Ptable.modify_ne _ _ hq, Ptable.modify_ne _ _ hq, Ptable.modify_ne _ _ hq]

theorem spun_succ (n m : BitVec 32) : { spun n m with
    pt := (spun n m).pt.modify 1 fun q => { q with pid := n }
    nextpid := n + 1 } = spun (n + 1) n := by
  have hne : (1 : Slot) ≠ 0 := by decide
  refine congrArg (fun pt => { spun n m with pt := pt, nextpid := n + 1 }) ?_
  funext q
  by_cases hq : q = 1
  · subst hq
    rw [Ptable.modify_self]
    simp only [spun, if_neg hne, if_true]
  · rw [Ptable.modify_ne _ _ hq]
    simp only [spun, if_neg hq]

/-- Init is scheduled. -/
theorem spun_start : (Kernel.boot 7 : Kernel 1).step (.dispatch 0 0 0) = some (spun 2 0) := by
  have hd : (Kernel.boot 7 : Kernel 1).cpu 0 = none ∧ ((Kernel.boot 7 : Kernel 1).pt 0).state = .RUNNABLE ∧
      (Kernel.boot 7 : Kernel 1).wins 0 0 = true := by decide
  have hpt : (Kernel.boot 7 : Kernel 1).pt.modify 0 (fun q => { q with state := .RUNNING }) = (spun 2 0).pt := by
    funext q
    by_cases hq : q = 0
    · subst hq
      simp [spun, Kernel.boot]
    · rw [Ptable.modify_ne _ _ hq]
      simp only [Kernel.boot, update_of_ne hq, spun, if_neg hq, Proc.zero, ite_self]
  have hcpu : update (Kernel.boot 7 : Kernel 1).cpu 0 (some 0) = (spun 2 0).cpu := by
    funext c
    rw [Subsingleton.elim c 0, update_self]
    rfl
  simp only [Kernel.step, Kernel.dispatch]
  rw [if_pos hd, hpt, hcpu]
  rfl

theorem reach_step (h : (kernel ncpu).Reach k) (hs : k.step a = some k') : (kernel ncpu).Reach k' :=
  .step h trivial (a := a) hs

/-- The counter takes every value. -/
theorem spun_reach : ∀ i : Nat, ∃ m, (kernel 1).Reach (spun (BitVec.ofNat 32 (2 + i)) m) := by
  intro i
  induction i with
  | zero =>
    have h0 : (kernel 1).Reach (.boot 7 : Kernel 1) := .init ⟨7, rfl⟩
    exact ⟨0, reach_step h0 spun_start⟩
  | succ i ih =>
    obtain ⟨m, ih⟩ := ih
    obtain ⟨k, hfork, hfail⟩ := fork_fails (c := 0) (k := spun (BitVec.ofNat 32 (2 + i)) m) rfl rfl (freeSlot_spun _ _)
    have hnext := reach_step (reach_step ih hfork) hfail
    rw [← Nat.add_assoc, BitVec.ofNat_add]
    exact ⟨_, spun_succ (BitVec.ofNat 32 (2 + i)) m ▸ hnext⟩

/-- When the counter has come round to 1, the next child gets the pid of init. -/
theorem pid_of_init_again : ∃ k : Kernel 1, (kernel 1).Reach k ∧ (k.pc 0).makes = some 1 ∧
    (k.pt 0).pid = 1 ∧ (k.pt 1).pid = 1 ∧ ¬ PidsDistinct k := by
  have hne : (0 : Slot) ≠ 1 := by decide
  obtain ⟨m, hm⟩ := spun_reach 4294967295
  have hk := reach_step hm (step_fork (c := 0) (p := 0) rfl rfl)
  rw [show BitVec.ofNat 32 (2 + 4294967295) = 1 from rfl, allocproc_eq (freeSlot_spun 1 m)] at hk
  generalize hgen : Kernel.setPc _ _ _ = k at hk
  have hpid : (k.pt 0).pid = 1 ∧ (k.pt 1).pid = 1 ∧ (k.pt 0).state = .RUNNING ∧ (k.pt 1).state = .EMBRYO := by
    rw [← hgen]
    refine ⟨?_, ?_, ?_, ?_⟩
    · simp [Ptable.modify_ne _ _ hne, spun]
    · simp [spun]
    · simp [Ptable.modify_ne _ _ hne, spun]
    · simp
  obtain ⟨h0, h1, hs0, hs1⟩ := hpid
  refine ⟨k, hk, by rw [← hgen]; simp [Pc.makes], h0, h1, fun hd => hne ?_⟩
  exact hd.inj 0 1 (by simp [hs0]) (by simp [hs1]) (h0.trans h1.symm)

end Xv6
