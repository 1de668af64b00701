import Xv6Threading.Thread.Frame

/-!
# The stack that `clone` accepts (`sysproc.c:113`, `proc.c:672`)

`sys_clone` and `clone` look at the stack three times: that it is aligned, that it does not lie half a page below the end,
and that `stack + PGSIZE` is not above the size of the process. The sum is one of 32 bits: it is 0 for the last page of the
address space, which passes for every size, and the frame of the new thread is then written to kernel addresses.
-/

namespace Xv6.Thread

variable {s s' : Sys} {r : Option (BitVec 32)} {p : Slot}

/-- The call has made a thread, and has written its frame. -/
def MakesThread (s s' : Sys) : Prop := ∃ np, (s.pt np).state = .UNUSED ∧ (s'.pt np).state = .RUNNABLE

/-- The stack page, and the two words of the frame with it, are below the size of the process. -/
structure StackInside (sz stack : BitVec 32) : Prop where
  aligned : stack % PGSIZE = 0
  page : stack.toNat + 4096 ≤ sz.toNat
  words : ∀ x, Bytes.InWord (stack + PGSIZE - 4) x ∨ Bytes.InWord (stack + PGSIZE - 8) x → x < sz

/-- The page at the top of the address space. -/
abbrev lastPage : BitVec 32 := 0xfffff000#32

theorem toNat_of_aligned {stack : BitVec 32} (h : stack % PGSIZE = 0) : stack.toNat % 4096 = 0 := by
  simpa using congrArg BitVec.toNat h

/-- Only for the last page the sum wraps around. -/
theorem stackInside_of_le {sz stack : BitVec 32} (ha : stack % PGSIZE = 0) (hle : ¬ stack + PGSIZE > sz)
    (hne : stack ≠ lastPage) : StackInside sz stack := by
  have hmod := toNat_of_aligned ha
  have hlt := stack.isLt
  have htop : stack.toNat ≠ 4294963200 := fun h => hne (BitVec.eq_of_toNat_eq h)
  have hsum : (stack + PGSIZE).toNat = stack.toNat + 4096 := by
    rw [BitVec.toNat_add, PGSIZE, BitVec.toNat_ofNat]
    omega
  have hpage : stack.toNat + 4096 ≤ sz.toNat := by
    rw [gt_iff_lt, BitVec.lt_def, hsum] at hle
    omega
  refine ⟨ha, hpage, fun x hx => ?_⟩
  simp only [Bytes.InWord, PGSIZE] at hx
  rcases hx with hx | hx <;> bv_omega

theorem not_stackInside_lastPage {sz : BitVec 32} (hsz : sz < KERNBASE) : ¬ StackInside sz lastPage := by
  intro h
  have := h.page
  rw [BitVec.lt_def] at hsz
  have hk : KERNBASE.toNat = 2147483648 := rfl
  have hl : lastPage.toNat = 4294963200 := rfl
  omega

/-! ## The calls that make a thread -/

theorem not_makesThread_exit (hs : s.exit p = some (s', r)) : ¬ MakesThread s s' := by
  rintro ⟨np, hold, hnew⟩
  unfold Sys.exit at hs
  split at hs
  · cases hs
  cases hs
  by_cases e : np = p
  · subst e
    simp at hnew
  · rw [Ptable.exitTable_state _ _ _ e, hold] at hnew
    simp at hnew

/-- A thread is made if and only if the checks pass and there are a slot and a kernel stack. -/
theorem makesThread_iff {function arg stack : BitVec 32} {ok : Bool}
    (hs : s.sysClone p function arg stack ok = some (s', r)) :
    MakesThread s s' ↔ ClonePasses s p function stack ∧ s.pt.freeSlot ≠ none ∧ ok = true := by
  by_cases hpass : ClonePasses s p function stack
  · obtain ⟨h1, h2, h3, h4⟩ := hpass
    rw [Sys.sysClone, if_neg (by simp [h1, h2, h3]), Sys.clone, if_neg (by simp [h2, h4])] at hs
    rcases allocproc_cases s ok with ⟨pt', n, e, hno, hpt⟩ | ⟨np, e, hf, hok⟩ <;> rw [e] at hs <;> cases hs
    · refine ⟨?_, ?_⟩
      · rintro ⟨np, hold, hnew⟩
        rw [(hpt np).1, hold] at hnew
        cases hnew
      · rintro ⟨-, hfree, rfl⟩
        simp [hfree] at hno
    · refine ⟨fun _ => ⟨⟨h1, h2, h3, h4⟩, by simp [hf], hok⟩, fun _ => ⟨np, Ptable.freeSlot_some hf, ?_⟩⟩
      simp [Sys.modifyMem]
  refine ⟨fun hm => ?_, fun h => absurd h.1 hpass⟩
  unfold Sys.sysClone at hs
  split at hs
  · cases hs
    obtain ⟨np, hold, hnew⟩ := hm
    rw [hold] at hnew
    cases hnew
  next hsys =>
    simp only [not_or, Bool.not_eq_true', Bool.not_eq_false, not_not] at hsys
    unfold Sys.clone at hs
    split at hs
    · exact absurd hm (not_makesThread_exit hs)
    next hclone =>
      exact absurd ⟨hsys.1, hsys.2.1, hsys.2.2, fun h => hclone (.inl h)⟩ hpass

/-- The last page passes the checks of every process. -/
theorem clonePasses_lastPage (hsz : (s.pt p).sz < KERNBASE) {function : BitVec 32}
    (hf : s.argptr p function = true) : ClonePasses s p function lastPage := by
  refine ⟨hf, by decide, ?_, ?_⟩
  · intro h
    simp only [KERNBASE] at hsz
    bv_omega
  · rw [show lastPage + PGSIZE = 0 from rfl]
    simp

/-- **Where the stack of a thread lies.** For every process with a size below `KERNBASE` and all arguments: a `clone` that
makes a thread has a stack page that lies, with both words of its frame, below the size, if and only if it is not called
with the last page of the address space, a valid function, and a slot and a kernel stack to be had. -/
theorem clone_stack_inside {p : Slot} (hp : s.canCall p = true) (hsz : (s.pt p).sz < KERNBASE)
    (function arg stack : BitVec 32) (ok : Bool) :
    (∀ s' r, s.call (.clone p function arg stack ok) = some (s', r) → MakesThread s s' →
      StackInside (s.pt p).sz stack) ↔
    (stack = lastPage → s.argptr p function = false ∨ s.pt.freeSlot = none ∨ ok = false) := by
  simp only [Sys.call, hp, if_true]
  constructor
  · rintro h rfl
    by_contra hno
    simp only [not_or, Bool.not_eq_false] at hno
    obtain ⟨hf, hfree, hok⟩ := hno
    have hpass := clonePasses_lastPage hsz hf
    have hret : ∃ s' r, s.sysClone p function arg lastPage ok = some (s', r) := by
      obtain ⟨h1, h2, h3, h4⟩ := hpass
      rw [Sys.sysClone, if_neg (by simp [h1, h2, h3]), Sys.clone, if_neg (by simp [h2, h4])]
      rcases allocproc_cases s ok with ⟨pt', n, e, -⟩ | ⟨np, e, -⟩ <;> rw [e] <;> exact ⟨_, _, rfl⟩
    obtain ⟨s', r, hs⟩ := hret
    exact not_stackInside_lastPage hsz (h s' r hs ((makesThread_iff hs).2 ⟨hpass, hfree, hok⟩))
  intro h s' r hs hm
  obtain ⟨⟨hf, ha, -, hle⟩, hfree, rfl⟩ := (makesThread_iff hs).1 hm
  refine stackInside_of_le ha hle fun e => ?_
  rcases h e with hbad | hnone | hbad
  · rw [hf] at hbad
    cases hbad
  · exact hfree hnone
  · cases hbad

/-- Init makes a thread on its only page. -/
theorem clone_stack_inside_init : ∃ s' r, (Sys.boot 7 fun _ => 0).call (.clone 0 0 5 0 true) = some (s', r) ∧
    MakesThread (.boot 7 fun _ => 0) s' ∧ StackInside 4096 0 := by
  refine ⟨_, _, rfl, ⟨1, by decide, by decide⟩, ?_⟩
  exact (clone_stack_inside (s := .boot 7 fun _ => 0) (p := 0) (by decide) (by decide) 0 5 0 true).2
    (by decide) _ _ rfl ⟨1, by decide, by decide⟩

/-- Init asks for a stack on the last page, and gets a thread. -/
theorem clone_stack_wraps : ∃ s s' r, machine.Reach s ∧ (s.pt 0).sz = 4096 ∧
    s.call (.clone 0 0 5 0xfffff000 true) = some (s', r) ∧ MakesThread s s' ∧ ¬ StackInside 4096 0xfffff000 ∧
    (s'.mem 7).read32 0xfffffffc = 5 := by
  have h0 : machine.Reach (.boot 7 fun _ => 0) := .init ⟨7, _, rfl⟩
  refine ⟨_, _, _, h0, by decide, rfl, ⟨1, by decide, by decide⟩,
    not_stackInside_lastPage (by decide), by decide⟩

end Xv6.Thread
