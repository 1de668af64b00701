import Xv6Threading.Sync.Exclusion

/-!
# Who sleeps, and who will wake it (`proc.c:539-596`)

A process on its way to sleep holds `lk`, or `ptable.lock`, or is `SLEEPING` with its `chan` set. A `wakeup` is
made with both locks, and so it finds the process asleep.
-/

namespace Xv6

open Function

namespace Monitor

variable {ι T C D : Type} {s s' : Sys ι T C D} {c : C} {p : T} {l : Lock} {n : Pc ι}

variable [DecidableEq T] [DecidableEq C]

structure Sleep (s : Sys ι T C D) : Prop where
  chan : ∀ p, s.chan p = (s.pc p).onChan
  sleeping : ∀ p, s.state p = .SLEEPING → (s.pc p).slept = true
  slept : ∀ p, (s.pc p).slept = true → s.state p = .SLEEPING ∨ s.state p = .RUNNABLE
  asleep : ∀ p i, s.pc p = .asleep i → ∀ c, s.proc c ≠ some p

/-- Under `lk`, on the way to a `wakeup`. -/
def signalling (M : Monitor ι T D) (d : D) : Pc ι → Prop
  | .test i => M.signals i = true ∧ M.blocked i d = false
  | .leave i | .wakeAcquire i | .wakeScan i => M.signals i = true
  | _ => False

structure Wait (M : Monitor ι T D) (s : Sys ι T C D) : Prop where
  past : ∀ p i, s.pc p = .leave i → M.blocked i s.data = false
  woken : ∀ p i, (s.pc p).awaits = some i → s.state p ≠ .RUNNABLE →
    M.blocked i s.data = true ∨ ∃ q, M.signalling s.data (s.pc q)

/-- A call that unblocks another signals, and does not itself sleep before that. -/
structure Signals (M : Monitor ι T D) : Prop where
  enter : ∀ i j p d, M.blocked i d = true → M.blocked i (M.enter j p d) = false →
    M.signals j = true ∧ M.blocked j (M.enter j p d) = false
  leave : ∀ i j p d, M.blocked i d = true → M.blocked i (M.leave j p d) = false → M.signals j = true

/-- No other process has moved. -/
structure Only (p : T) (s s' : Sys ι T C D) : Prop where
  pc : ∀ q, q ≠ p → s'.pc q = s.pc q
  state : ∀ q, q ≠ p → s'.state q = s.state q
  chan : ∀ q, q ≠ p → s'.chan q = s.chan q
  proc : ∀ c q, q ≠ p → s'.proc c = some q → s.proc c = some q

section

omit [DecidableEq T] [DecidableEq C]

variable {M : Monitor ι T D}

theorem sleep_boot (d : D) : Sleep (.boot d : Sys ι T C D) := by
  refine ⟨fun _ => rfl, ?_, ?_, ?_⟩
  · rintro p ⟨⟩
  · rintro p ⟨⟩
  · rintro p i ⟨⟩

theorem wait_boot (d : D) : Wait M (.boot d : Sys ι T C D) := by
  constructor
  · rintro p i ⟨⟩
  · rintro p i ⟨⟩

theorem signalling_holds {d : D} (h : M.signalling d n) : n.holds .lk = true := by
  cases n <;> first | rfl | cases h

theorem Only.refl (p : T) (s : Sys ι T C D) : Only p s s :=
  ⟨fun _ _ => rfl, fun _ _ => rfl, fun _ _ => rfl, fun _ _ _ h => h⟩

theorem Only.congr (h : Only p s s') {k : Sys ι T C D} (hpc : k.pc = s'.pc) (hstate : k.state = s'.state)
    (hchan : k.chan = s'.chan) (hproc : k.proc = s'.proc) : Only p s k := by
  refine ⟨?_, ?_, ?_, ?_⟩
  · rw [hpc]
    exact h.pc
  · rw [hstate]
    exact h.state
  · rw [hchan]
    exact h.chan
  · rw [hproc]
    exact h.proc

theorem Sleep.move (h : Sleep s) (ho : Only p s s') (hchan : s'.chan p = (s'.pc p).onChan)
    (hsleep : s'.state p = .SLEEPING → (s'.pc p).slept = true)
    (hslept : (s'.pc p).slept = true → s'.state p = .SLEEPING ∨ s'.state p = .RUNNABLE)
    (hoff : ∀ i, s'.pc p = .asleep i → ∀ c, s'.proc c ≠ some p) : Sleep s' := by
  refine ⟨?_, ?_, ?_, ?_⟩
  · intro q
    by_cases e : q = p
    · subst e
      exact hchan
    · rw [ho.chan q e, ho.pc q e]
      exact h.chan q
  · intro q hq
    by_cases e : q = p
    · subst e
      exact hsleep hq
    · rw [ho.state q e] at hq
      rw [ho.pc q e]
      exact h.sleeping q hq
  · intro q hq
    by_cases e : q = p
    · subst e
      exact hslept hq
    · rw [ho.pc q e] at hq
      rw [ho.state q e]
      exact h.slept q hq
  intro q i hq c hc
  by_cases e : q = p
  · subst e
    exact hoff i hq c hc
  · rw [ho.pc q e] at hq
    exact h.asleep q i hq c (ho.proc c q e hc)

theorem Wait.move (h : Wait M s) (ho : Only p s s') (hdata : s'.data = s.data)
    (hpast : ∀ i, s'.pc p = .leave i → M.blocked i s.data = false)
    (hwait : ∀ i, (s'.pc p).awaits = some i → s'.state p ≠ .RUNNABLE →
      M.blocked i s.data = true ∨ (s.pc p).awaits = some i ∧ s.state p ≠ .RUNNABLE)
    (hsig : M.signalling s.data (s.pc p) → M.signalling s.data (s'.pc p)) : Wait M s' := by
  have hpend : (∃ q, M.signalling s.data (s.pc q)) → ∃ q, M.signalling s.data (s'.pc q) := by
    rintro ⟨q, hq⟩
    refine ⟨q, ?_⟩
    by_cases e : q = p
    · subst e
      exact hsig hq
    · rwa [ho.pc q e]
  constructor
  · intro q i hq
    rw [hdata]
    by_cases e : q = p
    · subst e
      exact hpast i hq
    · rw [ho.pc q e] at hq
      exact h.past q i hq
  intro q i hq hst
  rw [hdata]
  have hbefore : M.blocked i s.data = true ∨ (s.pc q).awaits = some i ∧ s.state q ≠ .RUNNABLE := by
    by_cases e : q = p
    · subst e
      exact hwait i hq hst
    · rw [ho.pc q e] at hq
      rw [ho.state q e] at hst
      exact Or.inr ⟨hq, hst⟩
  rcases hbefore with hb | ⟨hq, hst⟩
  · exact Or.inl hb
  · exact (h.woken q i hq hst).imp_right hpend

end

section

variable {M : Monitor ι T D} {k : Sys ι T C D} {i : ι}

section

omit [DecidableEq C]

theorem Only.setPc (h : Only p k s) : Only p k (s.setPc p n) := by
  refine ⟨?_, h.state, h.chan, h.proc⟩
  intro q e
  simpa [Sys.setPc, e] using h.pc q e

theorem Only.setState (h : Only p k s) (st : Procstate) : Only p k (s.setState p st) := by
  refine ⟨h.pc, ?_, h.chan, h.proc⟩
  intro q e
  simpa [Sys.setState, e] using h.state q e

theorem Only.setChan (h : Only p k s) (b : Bool) : Only p k (s.setChan p b) := by
  refine ⟨h.pc, h.state, ?_, h.proc⟩
  intro q e
  simpa [Sys.setChan, e] using h.chan q e

end

omit [DecidableEq T] [DecidableEq C] in
theorem Only.setLock (h : Only p k s) (l : Lock) (lk : Spinlock C) : Only p k (s.setLock l lk) :=
  ⟨h.pc, h.state, h.chan, h.proc⟩

omit [DecidableEq T] in
theorem Only.setProc (h : Only p k s) {o : Option T} (ho : o = none ∨ o = some p) : Only p k (s.setProc c o) := by
  refine ⟨h.pc, h.state, h.chan, ?_⟩
  intro c' q e hq
  simp only [Sys.setProc, update_apply] at hq
  split at hq
  · rcases ho with rfl | rfl
    · cases hq
    · exact absurd (Option.some.inj hq).symm e
  · exact h.proc c' q e hq

omit [DecidableEq C] in
/-- A change of the data by the holder of `lk`: who it unblocks, it signals. -/
theorem Wait.change (h : Wait M s) (hx : Excl s) {d : D} (hp : (s.pc p).holds .lk = true) (hn : n.awaits = none)
    (hpast : ∀ i, n ≠ .leave i) (hun : ∀ i, M.blocked i s.data = true → M.blocked i d = false → M.signalling d n)
    (hsig : M.signalling s.data (s.pc p) → M.signalling d n) (hdata : s'.data = d)
    (hpc : s'.pc = update s.pc p n) (hstate : s'.state = s.state) : Wait M s' := by
  constructor
  · intro q i hq
    rw [hpc] at hq
    by_cases e : q = p
    · subst e
      rw [update_self] at hq
      exact absurd hq (hpast i)
    · rw [update_of_ne e] at hq
      exact absurd (hx.unique (l := .lk) (by rw [hq]; rfl) hp) e
  intro q i hq hst
  rw [hpc] at hq
  rw [hstate] at hst
  have e : q ≠ p := by
    rintro rfl
    rw [update_self, hn] at hq
    cases hq
  rw [update_of_ne e] at hq
  rw [hdata]
  by_cases hb : M.blocked i d = true
  · exact Or.inl hb
  refine Or.inr ⟨p, ?_⟩
  rw [hpc, update_self]
  rcases h.woken q i hq hst with hb' | ⟨r, hr⟩
  · exact hun i hb' (Bool.eq_false_of_not_eq_true hb)
  · obtain rfl := hx.unique (signalling_holds hr) hp
    exact hsig hr

omit [DecidableEq T] [DecidableEq C] in
/-- During the scan of a `wakeup`, no process that sleeps is still on a CPU. -/
theorem Sleep.off_of_scan (h : Sleep s) (hx : Excl s) (hp : s.pc p = .wakeScan i) {q : T}
    (hq : s.state q = .SLEEPING) : ∀ c, s.proc c ≠ some q := by
  intro c hc
  have hslept := h.sleeping q hq
  cases hpc : s.pc q <;> rw [hpc] at hslept <;> try cases hslept
  case sched j =>
    obtain rfl := hx.unique (l := .ptable) (p := q) (q := p) (by rw [hpc]; rfl) (by rw [hp]; rfl)
    rw [hp] at hpc
    cases hpc
  case asleep j => exact h.asleep q j hpc c hc

section

omit [DecidableEq C]

theorem Excl.scan (hx : Excl s) (h : Sleep s) (hp : s.pc p = .wakeScan i) :
    Excl (s.wakeup1.setPc p (.wakeRelease i)) := by
  refine Excl.move (hx.states ?_) ?_
  · intro c q hc
    rw [if_neg]
    · exact hx.runs c q hc
    · intro hs
      exact h.off_of_scan hx hp hs.1 c hc
  · intro l
    show _ = (s.pc p).holds l
    rw [hp]
    cases l <;> rfl

theorem Sleep.scan (h : Sleep s) (hp : s.pc p = .wakeScan i) : Sleep (s.wakeup1.setPc p (.wakeRelease i)) := by
  have hpc : ∀ q, q ≠ p → (s.wakeup1.setPc p (.wakeRelease i)).pc q = s.pc q := fun q e => update_of_ne e _ _
  have hself : (s.wakeup1.setPc p (.wakeRelease i)).pc p = .wakeRelease i := update_self ..
  have hstate : ∀ q, (s.wakeup1.setPc p (.wakeRelease i)).state q =
    if s.state q = .SLEEPING ∧ s.chan q = true then .RUNNABLE else s.state q := fun q => rfl
  refine ⟨?_, ?_, ?_, ?_⟩
  · intro q
    by_cases e : q = p
    · subst e
      rw [hself]
      exact (h.chan q).trans (by rw [hp]; rfl)
    · rw [hpc q e]
      exact h.chan q
  · intro q hq
    rw [hstate] at hq
    split at hq
    · cases hq
    rename_i hnot
    have hslept := h.sleeping q hq
    refine absurd ⟨hq, ?_⟩ hnot
    rw [h.chan q]
    cases hc : s.pc q <;> rw [hc] at hslept <;> first | rfl | cases hslept
  · intro q hq
    have e : q ≠ p := by
      rintro rfl
      rw [hself] at hq
      cases hq
    rw [hpc q e] at hq
    rw [hstate]
    split
    · exact Or.inr rfl
    · exact h.slept q hq
  intro q j hq
  have e : q ≠ p := by
    rintro rfl
    rw [hself] at hq
    cases hq
  rw [hpc q e] at hq
  exact h.asleep q j hq

/-- After the scan nobody is asleep on the channel, or on the way there. -/
theorem wait_scan (hx : Excl s) (h : Sleep s) (hp : s.pc p = .wakeScan i) :
    Wait M (s.wakeup1.setPc p (.wakeRelease i)) := by
  have hholds : ∀ q l, (s.pc q).holds l = true → q = p := by
    intro q l hq
    exact hx.unique hq (by rw [hp]; cases l <;> rfl)
  have hpc : ∀ q, q ≠ p → (s.wakeup1.setPc p (.wakeRelease i)).pc q = s.pc q := fun q e => update_of_ne e _ _
  have hself : (s.wakeup1.setPc p (.wakeRelease i)).pc p = .wakeRelease i := update_self ..
  constructor
  · intro q j hq
    have e : q ≠ p := by
      rintro rfl
      rw [hself] at hq
      cases hq
    rw [hpc q e] at hq
    exact absurd (hholds q .lk (by rw [hq]; rfl)) e
  intro q j hq hst
  have e : q ≠ p := by
    rintro rfl
    rw [hself] at hq
    cases hq
  rw [hpc q e] at hq
  change (if s.state q = .SLEEPING ∧ s.chan q = true then _ else s.state q) ≠ _ at hst
  cases hc : s.pc q with
  | sleepAcquire => exact absurd (hholds q .lk (by rw [hc]; rfl)) e
  | sleepRelease => exact absurd (hholds q .lk (by rw [hc]; rfl)) e
  | sleepChan => exact absurd (hholds q .ptable (by rw [hc]; rfl)) e
  | sleepState => exact absurd (hholds q .ptable (by rw [hc]; rfl)) e
  | sched => exact absurd (hholds q .ptable (by rw [hc]; rfl)) e
  | asleep =>
    rcases h.slept q (by rw [hc]; rfl) with hs | hs
    · rw [if_pos ⟨hs, by rw [h.chan q, hc]; rfl⟩] at hst
      exact absurd rfl hst
    · rw [if_neg (by simp [hs])] at hst
      exact absurd hs hst
  | _ =>
    rw [hc] at hq
    cases hq

end

end

end Monitor

end Xv6
