import Xv6Threading.Thread.Calls

/-!
# Who frees a page directory

`clone` lets several slots point to one page directory. `exec` frees the directory its process leaves
(`exec.c:104`) and `wait` the one of the zombie it reaps (`proc.c:306`), both without asking who else
has it; `join` frees none. So the directory of a running process can be freed under it: a thread that
exits and is reaped by `wait` takes the directory of its parent with it.
-/

namespace Xv6.Thread

variable {s s' : Sys} {d : Pgdir}

/-- No other slot in use has the page directory of `q`. -/
def Unshared (s : Sys) (q : Slot) : Prop :=
  ∀ r, r ≠ q → (s.pt r).state ≠ .UNUSED → (s.pt r).pgdir ≠ (s.pt q).pgdir

instance (s : Sys) (q : Slot) : Decidable (Unshared s q) := by unfold Unshared; infer_instance

/-- `exec` and `wait` free only directories that nobody else has. -/
def FreesUnshared (s : Sys) : Act → Prop
  | .exec p _ _ _ => Unshared s p
  | .wait p => ∀ z ∈ s.pt.zombieChild p, Unshared s z
  | .resume p => s.pending p = .wait → ∀ z ∈ s.pt.zombieChild p, Unshared s z
  | .fork _ _ _ | .clone _ _ _ _ _ | .exit _ | .join _ _ | .store _ _ _ => True

instance (s : Sys) : (a : Act) → Decidable (FreesUnshared s a)
  | .exec p _ _ _ => inferInstanceAs (Decidable (Unshared s p))
  | .wait p => inferInstanceAs (Decidable (∀ z ∈ s.pt.zombieChild p, Unshared s z))
  | .resume p => inferInstanceAs
    (Decidable (s.pending p = .wait → ∀ z ∈ s.pt.zombieChild p, Unshared s z))
  | .fork _ _ _ | .clone _ _ _ _ _ | .exit _ | .join _ _ | .store _ _ _ => inferInstanceAs (Decidable True)

/-- The property: whoever is neither free nor a zombie has an allocated page directory, and `freevm`
has never been applied to a directory that was not allocated. -/
def Safe (s : Sys) : Prop :=
  (∀ q, (s.pt q).state ≠ .UNUSED → (s.pt q).state ≠ .ZOMBIE → (s.pt q).pgdir ∈ s.dirs) ∧ s.freedTwice = false

/-- The invariant also keeps the directories of zombies. -/
structure Owned (s : Sys) : Prop where
  slot : ∀ q, (s.pt q).state ≠ .UNUSED → (s.pt q).pgdir ∈ s.dirs
  once : s.freedTwice = false

theorem Owned.safe (h : Owned s) : Safe s := ⟨fun q hq _ => h.slot q hq, h.once⟩

/-- A step that frees nothing. -/
theorem Owned.of_grow (h : Owned s) (hd : s.dirs ⊆ s'.dirs) (hf : s'.freedTwice = s.freedTwice)
    (hq : ∀ q, (s'.pt q).state ≠ .UNUSED →
      (s'.pt q).pgdir ∈ s'.dirs ∨ (s.pt q).state ≠ .UNUSED ∧ (s'.pt q).pgdir = (s.pt q).pgdir) : Owned s' := by
  refine ⟨?_, hf.trans h.once⟩
  intro q hu
  rcases hq q hu with hin | ⟨hu', hp⟩
  · exact hin
  · rw [hp]
    exact hd (h.slot q hu')

/-- One entry changes, and nothing is freed. -/
theorem Owned.of_entry (h : Owned s) (np : Slot) (hd : s.dirs ⊆ s'.dirs) (hf : s'.freedTwice = s.freedTwice)
    (hne : ∀ q, q ≠ np → s'.pt q = s.pt q) (hnp : (s'.pt np).state ≠ .UNUSED →
      (s'.pt np).pgdir ∈ s'.dirs ∨ (s.pt np).state ≠ .UNUSED ∧ (s'.pt np).pgdir = (s.pt np).pgdir) : Owned s' := by
  apply h.of_grow hd hf
  intro q hq
  by_cases e : q = np
  · subst e
    exact hnp hq
  · rw [hne q e] at hq ⊢
    exact .inr ⟨hq, rfl⟩

/-- `freevm` of a directory that is allocated and that no slot in use has afterwards. -/
theorem Owned.freevm (h : Owned s) (hd : d ∈ s.dirs)
    (hq : ∀ q, (s.pt q).state ≠ .UNUSED → (s.pt q).pgdir ≠ d) : Owned (s.freevm d) := by
  constructor
  · intro q hu
    exact Finset.mem_erase.2 ⟨hq q hu, h.slot q hu⟩
  · simp [Sys.freevm, h.once, hd]

/-! ## The calls -/

/-- A failed `allocproc` changes no directory and no state. -/
theorem owned_of_pids (h : Owned s) {pt' : Ptable} {n : BitVec 32}
    (hpt : ∀ q, (pt' q).state = (s.pt q).state ∧ (pt' q).pgdir = (s.pt q).pgdir) :
    Owned { s with pt := pt', nextpid := n } := by
  refine h.of_grow (Finset.Subset.refl _) rfl fun q hq => .inr ⟨?_, (hpt q).2⟩
  rwa [← (hpt q).1]

variable {r : Option (BitVec 32)} {p : Slot}

section

variable (h : Owned s) {ok : Bool}
include h

theorem owned_fork {copy : Option Pgdir} (hs : s.fork p ok copy = some (s', r)) : Owned s' := by
  unfold Sys.fork at hs
  rcases allocproc_cases s ok with ⟨pt', n, e, -, hpt⟩ | ⟨np, e, hf, -⟩ <;> rw [e] at hs
  · cases hs
    exact owned_of_pids h fun q => ⟨(hpt q).1, (hpt q).2.1⟩
  cases copy with
  | none =>
    cases hs
    refine h.of_entry np (Finset.Subset.refl _) rfl ?_ ?_
    · intro q hq
      simp [Sys.modify, Ptable.modify_ne _ _ hq]
    · intro hu
      simp [Sys.modify] at hu
  | some d =>
    dsimp only at hs
    split at hs
    · cases hs
    cases hs
    refine h.of_entry np (Finset.subset_insert _ _) rfl ?_ ?_
    · intro q hq
      simp [Ptable.modify_ne _ _ hq]
    · intro hu
      exact .inl (by simp)

section

variable (hp : (s.pt p).state = .RUNNABLE)
include hp

theorem owned_exit (hs : s.exit p = some (s', r)) : Owned s' := by
  unfold Sys.exit at hs
  split at hs
  · cases hs
  cases hs
  refine h.of_grow (Finset.Subset.refl _) rfl fun q hq => .inr ⟨?_, ?_⟩
  · by_cases e : q = p
    · subst e; simp [hp]
    · intro hu
      simp [Ptable.exitTable_state _ _ _ e, hu] at hq
  · dsimp only
    rw [Ptable.exitTable_frame]

theorem owned_clone {arg stack : BitVec 32} (hs : s.clone p arg stack ok = some (s', r)) : Owned s' := by
  unfold Sys.clone at hs
  split at hs
  · exact owned_exit h hp hs
  rcases allocproc_cases s ok with ⟨pt', n, e, -, hpt⟩ | ⟨np, e, hf, -⟩ <;> rw [e] at hs <;> cases hs
  · exact owned_of_pids h fun q => ⟨(hpt q).1, (hpt q).2.1⟩
  have hpn : p ≠ np := by
    rintro rfl
    simp [Ptable.freeSlot_some hf] at hp
  refine h.of_entry np (Finset.Subset.refl _) rfl ?_ fun _ => .inl ?_
  · intro q hq
    simp [Sys.modifyMem, Ptable.modify_ne _ _ hq]
  · simpa [Sys.modifyMem, Ptable.modify_ne _ _ hpn] using h.slot p (by simp [hp])

theorem owned_exec (hg : Unshared s p)
    {sz : BitVec 32} {image : Bytes} (hs : s.exec p d sz image = some (s', r)) : Owned s' := by
  unfold Sys.exec at hs
  split at hs
  · cases hs
  rename_i hd
  simp only [not_or] at hd
  cases hs
  have hold : (s.pt p).pgdir ∈ s.dirs := h.slot p (by simp [hp])
  apply Owned.freevm
  · refine h.of_entry p (Finset.subset_insert _ _) rfl ?_ ?_
    · intro q hq
      simp [Sys.modify, Ptable.modify_ne _ _ hq]
    · intro _
      exact .inl (by simp [Sys.modify])
  · simp [Sys.modify, hold]
  intro q hq
  by_cases e : q = p
  · subst e
    simp only [Sys.modify, Ptable.modify_self]
    rintro rfl
    exact hd.1 hold
  · simp only [Sys.modify, Ptable.modify_ne _ _ e] at hq ⊢
    exact hg q e hq

theorem owned_sleep (c : Pending) : Owned (s.sleep p c) := by
  refine h.of_entry p (Finset.Subset.refl _) rfl ?_ fun _ => .inr ⟨by simp [hp], ?_⟩
  · intro q hq
    simp [Sys.sleep, Ptable.modify_ne _ _ hq]
  · simp [Sys.sleep]

theorem owned_waitScan (hg : ∀ z ∈ s.pt.zombieChild p, Unshared s z) : Owned (s.waitScan p).1 := by
  unfold Sys.waitScan
  split
  next z hz =>
    have hzom := (Ptable.zombieChild_some hz).2
    apply Owned.freevm
    · refine h.of_entry z (Finset.Subset.refl _) rfl ?_ ?_
      · intro q hq
        simp [Ptable.reap, Ptable.modify_ne _ _ hq]
      · intro hu
        simp [Ptable.reap] at hu
    · exact h.slot z (by simp [hzom])
    intro q hq
    have e : q ≠ z := by
      rintro rfl
      simp [Ptable.reap] at hq
    simp only [Ptable.reap, Ptable.modify_ne _ _ e] at hq ⊢
    exact hg z hz q e hq
  · split
    · exact ⟨h.slot, h.once⟩
    · exact owned_sleep h hp _

theorem owned_joinScan (stack : BitVec 32) : Owned (s.joinScan p stack).1 := by
  unfold Sys.joinScan
  split
  next z hz =>
    refine h.of_entry z (Finset.Subset.refl _) rfl ?_ ?_
    · intro q hq
      simp [Sys.modifyMem, Ptable.reap, Ptable.modify_ne _ _ hq]
    · intro hu
      simp [Sys.modifyMem, Ptable.reap] at hu
  · exact owned_sleep h hp _

theorem owned_resume (hg : s.pending p = .wait → ∀ z ∈ s.pt.zombieChild p, Unshared s z)
    (hs : s.resume p = some (s', r)) : Owned s' := by
  have hpt : ∀ q, ((s.modify p fun q => { q with chan := none }).pt q).state = (s.pt q).state ∧
      ((s.modify p fun q => { q with chan := none }).pt q).pgdir = (s.pt q).pgdir := by
    intro q
    simp only [Sys.modify, Ptable.modify_apply]
    split
    next e =>
      subst e
      exact ⟨rfl, rfl⟩
    · exact ⟨rfl, rfl⟩
  have h' : Owned (s.modify p fun q => { q with chan := none }) := owned_of_pids h hpt
  have hp' := (hpt p).1.trans hp
  unfold Sys.resume at hs
  dsimp only at hs
  split at hs
  · cases hs
  next hw =>
    rw [fst_of_some hs]
    apply owned_waitScan h' hp'
    intro z hz q hq hu
    rw [(hpt q).2, (hpt z).2]
    refine hg hw z ?_ q hq ((hpt q).1 ▸ hu)
    rw [← zombieChild_modify s.pt p p (f := fun q => { q with chan := none }) (fun _ => rfl) fun _ => rfl]
    exact hz
  · rw [fst_of_some hs]
    exact owned_joinScan h' hp' _

end

theorem owned_call {a : Act} (hg : FreesUnshared s a) (hs : s.call a = some (s', r)) : Owned s' := by
  have hrun : ∀ p, s.canCall p = true → (s.pt p).state = .RUNNABLE := by
    intro p hp
    simp only [Sys.canCall, Bool.and_eq_true, decide_eq_true_eq] at hp
    exact hp.1
  cases a <;> simp only [Sys.call] at hs <;> split at hs
  case fork.isTrue => exact owned_fork h hs
  case clone.isTrue p function arg stack ok hp =>
    unfold Sys.sysClone at hs
    split at hs
    · cases hs
      exact h
    · exact owned_clone h (hrun p hp) hs
  case exec.isTrue p d sz image hp => exact owned_exec h (hrun p hp) hg hs
  case exit.isTrue p hp => exact owned_exit h (hrun p hp) hs
  case wait.isTrue p hp =>
    rw [fst_of_some hs]
    exact owned_waitScan h (hrun p hp) hg
  case join.isTrue p stack hp =>
    rw [fst_of_some hs]
    unfold Sys.sysJoin
    split
    · exact h
    · exact owned_joinScan h (hrun p hp) stack
  case resume.isTrue p hp => exact owned_resume h hp hg hs
  case store.isTrue p x b hp =>
    cases hs
    exact ⟨h.slot, h.once⟩
  all_goals cases hs

end

theorem owned_boot (d : Pgdir) (m : Bytes) : Owned (.boot d m) := by
  refine ⟨?_, rfl⟩
  intro q hq
  by_cases e : q = 0
  · subst e
    simp [Sys.boot]
  · simp [Sys.boot, e, Proc.zero] at hq

/-- **The lifetime of page directories, and what it takes.** In every run in which `exec` and `wait`
free only directories that no other slot in use has, whoever is neither free nor a zombie has an
allocated page directory in every state, and no directory is freed twice. -/
theorem directories_stay_allocated (h : machine.ReachBy FreesUnshared s) : Safe s := by
  refine Owned.safe (h.inv (I := Owned) ?_ ?_)
  · rintro _ ⟨d, m, rfl⟩
    exact owned_boot d m
  · intro s a t hi hg hs
    obtain ⟨⟨t', r⟩, hc, rfl⟩ := Option.map_eq_some_iff.1 hs
    exact owned_call hi hg hc

/-- Init forks, the child exits and is reaped; then init clones a thread, which exits and is joined. -/
def forkAndClone : List Act :=
  [.fork 0 true (some 8), .exit 1, .wait 0, .clone 0 0 0 0 true, .exit 1, .join 0 0]

theorem directories_stay_allocated_join : ∃ s, machine.ReachBy FreesUnshared s ∧ s.dirs = {7} ∧ Safe s := by
  obtain ⟨s, hs, hp⟩ := Machine.exists_reachBy (M := machine) (G := FreesUnshared)
    ⟨7, fun _ => 0, rfl⟩ forkAndClone (fun s => s.dirs = {7}) (by decide +kernel)
  exact ⟨s, hs, of_decide_eq_true hp, directories_stay_allocated hs⟩

/-! ### The run that frees a directory in use

Init clones a thread; the thread exits; init calls `wait`, which reaps it and frees the page directory
they share. A second thread reaped the same way would free it twice. -/

def freedInUse : List Act := [.clone 0 0 0 0 true, .exit 1, .wait 0]

def freedAgain : List Act := [.clone 0 0 0 0 true, .clone 0 0 0 0 true, .exit 1, .exit 2, .wait 0, .wait 0]

theorem directory_freed_in_use :
    (∃ s, machine.Reach s ∧ ∃ q, (s.pt q).state = .RUNNABLE ∧ (s.pt q).pgdir ∉ s.dirs) ∧
    ∃ s, machine.Reach s ∧ s.freedTwice = true := by
  constructor
  · obtain ⟨s, hs, hp⟩ := Machine.exists_reachBy (M := machine) (G := fun _ _ => True)
      ⟨7, fun _ => 0, rfl⟩ freedInUse
      (fun s => (s.pt 0).state = .RUNNABLE ∧ (s.pt 0).pgdir ∉ s.dirs) (by decide +kernel)
    exact ⟨s, hs, 0, of_decide_eq_true hp⟩
  · obtain ⟨s, hs, hp⟩ := Machine.exists_reachBy (M := machine) (G := fun _ _ => True)
      ⟨7, fun _ => 0, rfl⟩ freedAgain (fun s => s.freedTwice) (by decide +kernel)
    exact ⟨s, hs, hp⟩

end Xv6.Thread
