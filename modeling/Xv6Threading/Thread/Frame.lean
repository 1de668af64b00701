import Xv6Threading.Thread.Calls

/-!
# What `clone` and `join` write to user memory

`clone` means to build a two-word frame at the top of the new stack page, and `join` to store the
stack of the thread it reaps. Both also count threads through `refs` (`proc.c:716-717`,
`proc.c:765`), a pointer that nothing ever sets: `userinit` and `fork` leave it at 0, `clone` copies
it from the caller. So the count lives in the word at user address 0, where the program text starts.
-/

namespace Xv6.Thread

open Function

variable {s s' : Sys}

/-- All of user memory but the bytes in `W`, seen through directory `d`, is unchanged. -/
def FrameAt (s s' : Sys) (d : Pgdir) (W : BitVec 32 → Prop) : Prop :=
  ∀ e x, (e = d → ¬ W x) → s'.mem e x = s.mem e x

/-- `clone` by `p` writes only the two words at the top of the stack page. -/
def CloneFrame (s s' : Sys) (p : Slot) (stack : BitVec 32) : Prop :=
  FrameAt s s' (s.pt p).pgdir fun x => Bytes.InWord (stack + PGSIZE - 4) x ∨ Bytes.InWord (stack + PGSIZE - 8) x

/-- `join` by `p` writes only the word its argument points to. -/
def JoinFrame (s s' : Sys) (p : Slot) (stack : BitVec 32) : Prop :=
  FrameAt s s' (s.pt p).pgdir fun x => Bytes.InWord stack x

/-- The checks of `sys_clone` and `clone`. -/
def ClonePasses (s : Sys) (p : Slot) (function stack : BitVec 32) : Prop :=
  s.argptr p function = true ∧ stack % PGSIZE = 0 ∧ (s.pt p).sz - stack ≠ 2048#32 ∧ ¬ stack + PGSIZE > (s.pt p).sz

instance (s : Sys) (p : Slot) (function stack : BitVec 32) : Decidable (ClonePasses s p function stack) := by
  unfold ClonePasses; infer_instance

/-! ## `refs` is null -/

/-- Every slot has a null `refs` and a size below `KERNBASE`, and a pending `join` a user pointer. -/
structure NullRefs (s : Sys) : Prop where
  refs : ∀ q, (s.pt q).refs = 0
  sz : ∀ q, (s.pt q).sz < KERNBASE
  arg : ∀ q stack, s.pending q = .join stack → stack < KERNBASE

/-- A step that takes `refs` and sizes from the slots there are, or sets a legal size. -/
theorem NullRefs.of_pt (h : NullRefs s) (hr : ∀ q, ∃ r, (s'.pt q).refs = (s.pt r).refs)
    (hz : ∀ q, (s'.pt q).sz < KERNBASE ∨ ∃ r, (s'.pt q).sz = (s.pt r).sz)
    (ha : ∀ q stack, s'.pending q = .join stack → s.pending q = .join stack ∨ stack < KERNBASE) : NullRefs s' := by
  refine ⟨?_, ?_, ?_⟩
  · intro q
    obtain ⟨r, hr⟩ := hr q
    rw [hr, h.refs r]
  · intro q
    rcases hz q with hz | ⟨r, hz⟩
    · exact hz
    · rw [hz]
      exact h.sz r
  · intro q stack hq
    rcases ha q stack hq with hq | hs
    · exact h.arg q stack hq
    · exact hs

/-- One entry changes, taking `refs` and size from some slot. -/
theorem NullRefs.of_entry (h : NullRefs s) (np : Slot) (hne : ∀ q, q ≠ np → s'.pt q = s.pt q)
    (hr : ∃ r, (s'.pt np).refs = (s.pt r).refs) (hz : (s'.pt np).sz < KERNBASE ∨ ∃ r, (s'.pt np).sz = (s.pt r).sz)
    (ha : ∀ q stack, s'.pending q = .join stack → s.pending q = .join stack ∨ stack < KERNBASE) : NullRefs s' := by
  refine h.of_pt (fun q => ?_) (fun q => ?_) ha <;> by_cases e : q = np
  · subst e; exact hr
  · exact ⟨q, by rw [hne q e]⟩
  · subst e; exact hz
  · exact .inr ⟨q, by rw [hne q e]⟩

variable {p : Slot} {c : Pending}

theorem pending_update {f : Slot → Pending} {P : BitVec 32 → Prop} (hc : ∀ stack, c = .join stack → P stack) :
    ∀ q stack, update f p c q = .join stack → f q = .join stack ∨ P stack := by
  intro q stack hq
  rw [update_apply] at hq
  split at hq
  · exact .inr (hc stack hq)
  · exact .inl hq

variable {r : Option (BitVec 32)}

theorem nullRefs_exit (h : NullRefs s) (hs : s.exit p = some (s', r)) : NullRefs s' := by
  unfold Sys.exit at hs
  split at hs
  · cases hs
  cases hs
  refine h.of_pt (fun q => ⟨q, ?_⟩) (fun q => .inr ⟨q, ?_⟩) fun q stack hq => .inl hq <;>
  · dsimp only
    rw [Ptable.exitTable_frame]

variable {ok : Bool}

theorem nullRefs_fork (h : NullRefs s) {copy : Option Pgdir}
    (hs : s.fork p ok copy = some (s', r)) : NullRefs s' := by
  unfold Sys.fork at hs
  rcases allocproc_cases s ok with ⟨pt', n, e, -, hpt⟩ | ⟨np, e, hf, -⟩ <;> rw [e] at hs
  · cases hs
    exact h.of_pt (fun q => ⟨q, (hpt q).2.2.1⟩) (fun q => .inr ⟨q, (hpt q).2.2.2⟩) fun q stack hq => .inl hq
  cases copy with
  | none =>
    cases hs
    refine h.of_entry np ?_ ⟨np, ?_⟩ (.inr ⟨np, ?_⟩) fun q stack hq => .inl hq
    · intro q hq
      simp [Sys.modify, Ptable.modify_ne _ _ hq]
    · simp [Sys.modify]
    · simp [Sys.modify]
  | some d =>
    dsimp only at hs
    split at hs
    · cases hs
    cases hs
    refine h.of_entry np ?_ ⟨np, ?_⟩ (.inr ?_) (pending_update (by simp))
    · intro q hq
      simp [Ptable.modify_ne _ _ hq]
    · simp
    · by_cases e : p = np
      · exact ⟨np, by simp [e]⟩
      · exact ⟨p, by simp [Ptable.modify_ne _ _ e]⟩

variable {stack arg : BitVec 32}

section

variable (h : NullRefs s)
include h

theorem nullRefs_clone
    (hs : s.clone p arg stack ok = some (s', r)) : NullRefs s' := by
  unfold Sys.clone at hs
  split at hs
  · exact nullRefs_exit h hs
  rcases allocproc_cases s ok with ⟨pt', n, e, -, hpt⟩ | ⟨np, e, hf, -⟩ <;> rw [e] at hs <;> cases hs
  · exact h.of_pt (fun q => ⟨q, (hpt q).2.2.1⟩) (fun q => .inr ⟨q, (hpt q).2.2.2⟩) fun q stack hq => .inl hq
  refine h.of_entry np (fun q hq => ?_) ?_ (.inr ?_) (pending_update (by simp))
  · simp [Sys.modifyMem, Ptable.modify_ne _ _ hq]
  all_goals
    by_cases e : p = np
    · exact ⟨np, by simp [Sys.modifyMem, e]⟩
    · exact ⟨p, by simp [Sys.modifyMem, Ptable.modify_ne _ _ e]⟩

theorem nullRefs_sleep (hc : ∀ stack, c = .join stack → stack < KERNBASE) : NullRefs (s.sleep p c) := by
  refine h.of_entry p ?_ ⟨p, ?_⟩ (.inr ⟨p, ?_⟩) (pending_update hc)
  · intro q hq
    simp [Sys.sleep, Ptable.modify_ne _ _ hq]
  · simp [Sys.sleep]
  · simp [Sys.sleep]

theorem nullRefs_waitScan (p : Slot) : NullRefs (s.waitScan p).1 := by
  unfold Sys.waitScan
  split
  next z hz =>
    refine h.of_entry z ?_ ⟨z, ?_⟩ (.inr ⟨z, ?_⟩) (pending_update (by simp))
    · intro q hq
      simp [Sys.freevm, Ptable.reap, Ptable.modify_ne _ _ hq]
    · simp [Sys.freevm, Ptable.reap]
    · simp [Sys.freevm, Ptable.reap]
  · split
    · exact h.of_pt (fun q => ⟨q, rfl⟩) (fun q => .inr ⟨q, rfl⟩) (pending_update (by simp))
    · exact nullRefs_sleep h (by simp)

theorem nullRefs_joinScan (p : Slot) (hst : stack < KERNBASE) : NullRefs (s.joinScan p stack).1 := by
  unfold Sys.joinScan
  split
  next z hz =>
    refine h.of_entry z ?_ ⟨z, ?_⟩ (.inr ⟨z, ?_⟩) (pending_update (by simp))
    · intro q hq
      simp [Sys.modifyMem, Ptable.reap, Ptable.modify_ne _ _ hq]
    · simp [Sys.modifyMem, Ptable.reap]
    · simp [Sys.modifyMem, Ptable.reap]
  · apply nullRefs_sleep h
    intro stack' e
    cases e
    exact hst

theorem lt_of_argptr {i : BitVec 32} (hi : s.argptr p i = true) : i < KERNBASE := by
  simp only [Sys.argptr, Bool.not_eq_true', Bool.or_eq_false_iff, decide_eq_false_iff_not, ge_iff_le,
    BitVec.not_le] at hi
  exact BitVec.lt_trans hi.1 (h.sz p)

theorem nullRefs_awake (p : Slot) : NullRefs (s.modify p fun q => { q with chan := none }) := by
  refine h.of_entry p ?_ ⟨p, ?_⟩ (.inr ⟨p, ?_⟩) fun q stack hq => .inl hq
  · intro q hq
    simp [Sys.modify, Ptable.modify_ne _ _ hq]
  · simp [Sys.modify]
  · simp [Sys.modify]

theorem nullRefs_resume (hs : s.resume p = some (s', r)) : NullRefs s' := by
  have h' := nullRefs_awake h p
  unfold Sys.resume at hs
  dsimp only at hs
  split at hs
  · cases hs
  · rw [fst_of_some hs]
    exact nullRefs_waitScan h' p
  next stack hp =>
    rw [fst_of_some hs]
    exact nullRefs_joinScan h' p (h.arg p stack hp)

theorem nullRefs_call {a : Act} (hs : s.call a = some (s', r)) : NullRefs s' := by
  cases a <;> simp only [Sys.call] at hs <;> split at hs
  case fork.isTrue => exact nullRefs_fork h hs
  case clone.isTrue =>
    unfold Sys.sysClone at hs
    split at hs
    · cases hs
      exact h
    · exact nullRefs_clone h hs
  case exec.isTrue p d sz image hp =>
    unfold Sys.exec at hs
    split at hs
    · cases hs
    rename_i hd
    cases hs
    simp only [not_or, ge_iff_le, BitVec.not_le] at hd
    refine h.of_entry p ?_ ⟨p, ?_⟩ (.inl ?_) fun q stack hq => .inl hq
    · intro q hq
      simp [Sys.freevm, Sys.modify, Ptable.modify_ne _ _ hq]
    · simp [Sys.freevm, Sys.modify]
    · simpa [Sys.freevm, Sys.modify] using hd.2.2
  case exit.isTrue => exact nullRefs_exit h hs
  case wait.isTrue p hp =>
    rw [fst_of_some hs]
    exact nullRefs_waitScan h p
  case join.isTrue p stack hp =>
    rw [fst_of_some hs]
    unfold Sys.sysJoin
    split
    · exact h
    next ha =>
      exact nullRefs_joinScan h p (lt_of_argptr h (by simpa using ha))
  case resume.isTrue => exact nullRefs_resume h hs
  case store.isTrue =>
    cases hs
    exact ⟨h.refs, h.sz, h.arg⟩
  all_goals cases hs

end

theorem nullRefs_reach (h : machine.Reach s) : NullRefs s := by
  apply h.inv (I := NullRefs)
  · rintro _ ⟨d, m, rfl⟩
    refine ⟨fun q => ?_, fun q => ?_, fun q stack hq => by cases hq⟩ <;>
    by_cases e : q = 0 <;> simp [Sys.boot, e, Proc.zero]
  · intro s a t hi hs
    obtain ⟨⟨t', r⟩, hc, rfl⟩ := Option.map_eq_some_iff.1 hs
    exact nullRefs_call hi hc

/-! ## The frames -/

/-- The word at 0 is no part of a frame at the top of a page. -/
theorem not_inWord_frame (h : stack % PGSIZE = 0) {c : BitVec 32} (hc : c = 4 ∨ c = 8) :
    ¬ Bytes.InWord (stack + PGSIZE - c) 0 := by
  have h' : stack.toNat % 4096 = 0 := by
    have := congrArg BitVec.toNat h
    simpa using this
  have := stack.isLt
  rcases hc with rfl | rfl <;>
  · simp only [Bytes.InWord, PGSIZE]
    bv_omega

theorem frame_zero {m : Bytes} (h : stack % PGSIZE = 0) : Sys.frame m arg stack 0 = m 0 := by
  rw [Sys.frame, Bytes.write32_of_not (not_inWord_frame h (.inr rfl)),
    Bytes.write32_of_not (not_inWord_frame h (.inl rfl))]

theorem clone_frame_iff (h : NullRefs s) (hp : (s.pt p).state = .RUNNABLE)
    {function : BitVec 32} (hpass : ClonePasses s p function stack)
    (hs : s.sysClone p function arg stack ok = some (s', r)) :
    CloneFrame s s' p stack ↔ s.pt.freeSlot = none ∨ ok = false := by
  obtain ⟨h1, h2, h3, h4⟩ := hpass
  rw [Sys.sysClone, if_neg (by simp [h1, h2, h3]), Sys.clone, if_neg (by simp [h2, h4])] at hs
  rcases allocproc_cases s ok with ⟨pt', n, e, hno, -⟩ | ⟨np, e, hf, hok⟩ <;> rw [e] at hs <;> cases hs
  · exact ⟨fun _ => hno, fun _ d x _ => rfl⟩
  have hpn : p ≠ np := by
    rintro rfl
    simp [Ptable.freeSlot_some hf] at hp
  -- the byte at 0 is outside the frame and incremented
  refine ⟨?_, fun hno => by simp [hf, hok] at hno⟩
  intro hfr
  have h0 := hfr (s.pt p).pgdir 0 fun _ => by
    simp only [not_or]
    exact ⟨not_inWord_frame h2 (.inl rfl), not_inWord_frame h2 (.inr rfl)⟩
  simp only [Sys.modifyMem, Ptable.modify_ne _ _ hpn, update_self, h.refs p] at h0
  exact absurd (h0.trans (frame_zero h2).symm) (Bytes.write32_add_ne (by decide))

theorem join_frame_iff (h : NullRefs s) (hst : stack < KERNBASE) :
    JoinFrame s (s.joinScan p stack).1 p stack ↔ s.pt.zombieThread p = none ∨ stack = 0 := by
  unfold Sys.joinScan
  split
  next z hz =>
    refine ⟨fun hfr => .inr ?_, ?_⟩
    · by_contra hne
      have hw : ¬ Bytes.InWord stack 0 := by
        simp only [Bytes.InWord, KERNBASE] at *
        bv_omega
      have h0 := hfr (s.pt p).pgdir 0 fun _ => hw
      simp only [Sys.modifyMem, update_self, h.refs z] at h0
      rw [BitVec.sub_eq_add_neg] at h0
      exact absurd (h0.trans (Bytes.write32_of_not hw).symm) (Bytes.write32_add_ne (by decide))
    rintro (hn | rfl)
    · simp [hz] at hn
    · intro d x hx
      simp only [Sys.modifyMem, h.refs z]
      by_cases e : d = (s.pt p).pgdir
      · subst e
        simp only [update_self]
        rw [Bytes.write32_of_not (hx rfl), Bytes.write32_of_not (hx rfl)]
      · simp [update_of_ne e]
  next hz =>
    exact ⟨fun _ => .inl hz, fun _ d x _ => rfl⟩

/-- **What `clone` and `join` write.** In every state of every run: a `clone` that passes its checks
writes only its two frame words exactly when it makes no thread, and a turn of `join`, the first or
one after a wakeup, writes only the word it was given exactly when it reaps nobody or that word is the
one at address 0. -/
theorem clone_join_frame (h : machine.Reach s) :
    (∀ p function arg stack ok s' r, s.call (.clone p function arg stack ok) = some (s', r) →
      ClonePasses s p function stack → (CloneFrame s s' p stack ↔ s.pt.freeSlot = none ∨ ok = false)) ∧
    (∀ p stack s' r, s.call (.join p stack) = some (s', r) → s.argptr p stack = true →
      (JoinFrame s s' p stack ↔ s.pt.zombieThread p = none ∨ stack = 0)) ∧
    (∀ p stack s' r, s.call (.resume p) = some (s', r) → s.pending p = .join stack →
      (JoinFrame s s' p stack ↔ s.pt.zombieThread p = none ∨ stack = 0)) := by
  have hn := nullRefs_reach h
  refine ⟨fun p function arg stack ok s' r hs hpass => ?_, fun p stack s' r hs ha => ?_,
    fun p stack s' r hs hp => ?_⟩ <;>
    simp only [Sys.call] at hs <;> split at hs
  next hp =>
    simp only [Sys.canCall, Bool.and_eq_true, decide_eq_true_eq] at hp
    exact clone_frame_iff hn hp.1 hpass hs
  · cases hs
  · rw [fst_of_some hs, Sys.sysJoin, if_neg (by simp [ha])]
    exact join_frame_iff hn (lt_of_argptr hn ha)
  · cases hs
  · simp only [Sys.resume, hp] at hs
    rw [fst_of_some hs]
    have hz := zombieThread_modify s.pt p p (f := fun q => { q with chan := none }) (fun _ => rfl) (fun _ => rfl)
      fun _ => rfl
    have hfr := join_frame_iff (nullRefs_awake hn p) (p := p) (hn.arg p stack hp)
    simpa only [JoinFrame, FrameAt, Sys.modify, hz, Ptable.modify_self] using hfr
  · cases hs

/-- A thread is made without a kernel stack: nothing is written. -/
theorem clone_join_frame_failed : ∃ s s' r, machine.Reach s ∧ s.call (.clone 0 0 5 0 false) = some (s', r) ∧
    r = some (-1) ∧ CloneFrame s s' 0 0 := by
  have h0 : machine.Reach (.boot 7 fun _ => 0) := .init ⟨7, _, rfl⟩
  refine ⟨_, _, _, h0, rfl, by decide, ?_⟩
  exact ((clone_join_frame h0).1 0 0 5 0 false _ _ rfl (by decide)).2 (.inr rfl)

/-! ### The word at 0

The first `clone` of init turns the byte at address 0 from 0 to 1; the `join` of that thread turns it
back, although it was told to store at address 8. -/

theorem clone_writes_text :
    (∃ s s' r, machine.Reach s ∧ s.call (.clone 0 0 5 0 true) = some (s', r) ∧ ClonePasses s 0 0 0 ∧
      s.mem 7 0 = 0 ∧ s'.mem 7 0 = 1 ∧ ¬ CloneFrame s s' 0 0) ∧
    ∃ s s' r, machine.Reach s ∧ s.call (.join 0 8) = some (s', r) ∧ s.argptr 0 8 = true ∧
      s.mem 7 0 = 1 ∧ s'.mem 7 0 = 0 ∧ ¬ JoinFrame s s' 0 8 := by
  constructor
  · have h0 : machine.Reach (.boot 7 fun _ => 0) := .init ⟨7, _, rfl⟩
    refine ⟨_, _, _, h0, rfl, by decide, rfl, by decide, ?_⟩
    intro hf
    exact absurd (hf 7 0 fun _ => by decide) (by decide)
  obtain ⟨s, hs, hp⟩ := Machine.exists_reachBy (M := machine) (G := fun _ _ => True) ⟨7, fun _ => 0, rfl⟩
    [.clone 0 0 5 0 true, .exit 1] (fun s => s.argptr 0 8 = true ∧ s.mem 7 0 = 1 ∧ (s.pt 0).pgdir = 7 ∧
      (s.call (.join 0 8)).any (fun x => decide (x.1.mem 7 0 = 0)) = true) (by decide +kernel)
  obtain ⟨ha, h1, hd, hj⟩ := of_decide_eq_true hp
  obtain ⟨⟨s', r⟩, hc, h2⟩ := (Option.any_eq_true _ _).1 hj
  have h2 := of_decide_eq_true h2
  refine ⟨s, s', r, hs, hc, ha, h1, h2, ?_⟩
  intro hf
  have := hf 7 0 fun _ => by decide
  rw [h1, h2] at this
  exact absurd this (by decide)

end Xv6.Thread
