import Xv6Threading.Sync.Monitor

/-!
# At most one process under a spin lock (`spinlock.c:24-68`)

`lk->cpu` says on which CPU the process runs that has the lock, and no process with a lock leaves its CPU, so that
`holding` answers for the process and not only for the CPU.
-/

namespace Xv6

open Function

namespace Monitor

variable {ι T C D : Type} {s s' : Sys ι T C D} {c : C} {p : T} {l : Lock} {n : Pc ι}

structure Excl (s : Sys ι T C D) : Prop where
  inj : ∀ c c' p, s.proc c = some p → s.proc c' = some p → c = c'
  runs : ∀ c p, s.proc c = some p → s.state p ≠ .RUNNABLE
  owner : ∀ l p, (s.pc p).holds l = true → ∃ c, s.proc c = some p ∧ s.lock l = ⟨true, some c⟩
  held : ∀ l, (s.lock l).locked = true →
    ∃ c p, (s.lock l).cpu = some c ∧ s.proc c = some p ∧ (s.pc p).holds l = true
  panic : s.panic = none

theorem excl_boot (d : D) : Excl (.boot d : Sys ι T C D) := by
  refine ⟨?_, ?_, ?_, ?_, rfl⟩
  · rintro c c' p ⟨⟩
  · rintro c p ⟨⟩
  · intro l p h
    cases l <;> cases h
  · rintro l ⟨⟩

/-- Two processes never hold one lock. -/
theorem Excl.unique (h : Excl s) {q : T} (hp : (s.pc p).holds l = true) (hq : (s.pc q).holds l = true) : p = q := by
  obtain ⟨c, hc, hl⟩ := h.owner l p hp
  obtain ⟨c', hc', hl'⟩ := h.owner l q hq
  rw [hl, Spinlock.mk.injEq, Option.some.injEq] at hl'
  rw [← hl'.2, hc] at hc'
  exact Option.some.inj hc'

theorem Excl.locked (h : Excl s) (hp : (s.pc p).holds l = true) : (s.lock l).locked = true := by
  obtain ⟨c, -, hl⟩ := h.owner l p hp
  rw [hl]

/-- Who holds a lock executes. -/
theorem Excl.off (h : Excl s) (hp : ∀ c, s.proc c ≠ some p) : (s.pc p).holds l = false := by
  by_contra hh
  obtain ⟨c, hc, -⟩ := h.owner l p (Bool.eq_true_of_not_eq_false hh)
  exact hp c hc

theorem Excl.congr (h : Excl s) (hlock : s'.lock = s.lock) (hpc : s'.pc = s.pc) (hproc : s'.proc = s.proc)
    (hstate : s'.state = s.state) (hpanic : s'.panic = s.panic) : Excl s' := by
  refine ⟨?_, ?_, ?_, ?_, ?_⟩
  · rw [hproc]
    exact h.inj
  · rw [hproc, hstate]
    exact h.runs
  · rw [hproc, hpc, hlock]
    exact h.owner
  · rw [hproc, hpc, hlock]
    exact h.held
  · rw [hpanic]
    exact h.panic

variable [DecidableEq T]

/-- A step of `p` that leaves the locks as they are. -/
theorem Excl.move (h : Excl s) (hh : ∀ l, n.holds l = (s.pc p).holds l) : Excl (s.setPc p n) := by
  have hpc : ∀ q l, ((s.setPc p n).pc q).holds l = (s.pc q).holds l := by
    intro q l
    by_cases e : q = p
    · subst e
      simp [Sys.setPc, hh]
    · simp [Sys.setPc, e]
  refine ⟨h.inj, h.runs, ?_, ?_, h.panic⟩
  · intro l q hq
    rw [hpc q] at hq
    exact h.owner l q hq
  · intro l hl
    obtain ⟨c, q, h1, h2, h3⟩ := h.held l hl
    exact ⟨c, q, h1, h2, by rw [hpc q]; exact h3⟩

theorem Excl.acquire (h : Excl s) (hc : s.proc c = some p) (hfree : (s.lock l).locked = false)
    (hl : n.holds l = true) (hh : n.holds l.other = (s.pc p).holds l.other) :
    Excl ((s.setLock l ⟨true, some c⟩).setPc p n) := by
  have hh : ∀ k, k ≠ l → n.holds k = (s.pc p).holds k := by
    intro k e
    rw [Lock.eq_other e, hh]
  refine ⟨h.inj, h.runs, ?_, ?_, h.panic⟩
  · intro k q hq
    by_cases e : q = p
    · subst e
      simp only [Sys.setPc, Sys.setLock, update_self] at hq
      by_cases ek : k = l
      · subst ek
        exact ⟨c, hc, by simp [Sys.setPc, Sys.setLock]⟩
      · rw [hh k ek] at hq
        obtain ⟨c', h1, h2⟩ := h.owner k q hq
        exact ⟨c', h1, by simpa [Sys.setPc, Sys.setLock, ek] using h2⟩
    simp only [Sys.setPc, Sys.setLock, update_of_ne e] at hq
    have ek : k ≠ l := by
      rintro rfl
      rw [h.locked hq] at hfree
      cases hfree
    obtain ⟨c', h1, h2⟩ := h.owner k q hq
    exact ⟨c', h1, by simpa [Sys.setPc, Sys.setLock, ek] using h2⟩
  intro k hk
  by_cases ek : k = l
  · subst ek
    exact ⟨c, p, by simp [Sys.setPc, Sys.setLock], hc, by simpa [Sys.setPc] using hl⟩
  simp only [Sys.setPc, Sys.setLock, update_of_ne ek] at hk
  obtain ⟨c', q, h1, h2, h3⟩ := h.held k hk
  refine ⟨c', q, by simpa [Sys.setPc, Sys.setLock, ek] using h1, h2, ?_⟩
  by_cases e : q = p
  · subst e
    simpa [Sys.setPc, hh k ek] using h3
  · simpa [Sys.setPc, Sys.setLock, e] using h3

theorem Excl.release (h : Excl s) (hp : (s.pc p).holds l = true) (hl : n.holds l = false)
    (hh : n.holds l.other = (s.pc p).holds l.other) : Excl ((s.setLock l ⟨false, none⟩).setPc p n) := by
  have hh : ∀ k, k ≠ l → n.holds k = (s.pc p).holds k := by
    intro k e
    rw [Lock.eq_other e, hh]
  have hpc : ∀ q k, (((s.setLock l ⟨false, none⟩).setPc p n).pc q).holds k = true ↔
      (s.pc q).holds k = true ∧ k ≠ l := by
    intro q k
    by_cases e : q = p
    · subst e
      by_cases ek : k = l
      · subst ek
        simp [Sys.setPc, hl]
      · simp [Sys.setPc, hh k ek, ek]
    · simp only [Sys.setPc, Sys.setLock, update_of_ne e]
      refine ⟨fun hq => ⟨hq, ?_⟩, fun hq => hq.1⟩
      rintro rfl
      exact e (h.unique hq hp)
  refine ⟨h.inj, h.runs, ?_, ?_, h.panic⟩
  · intro k q hq
    obtain ⟨hq, ek⟩ := (hpc q k).1 hq
    obtain ⟨c', h1, h2⟩ := h.owner k q hq
    exact ⟨c', h1, by simpa [Sys.setPc, Sys.setLock, ek] using h2⟩
  intro k hk
  by_cases ek : k = l
  · subst ek
    simp [Sys.setPc, Sys.setLock] at hk
  · simp only [Sys.setPc, Sys.setLock, update_of_ne ek] at hk
    obtain ⟨c', q, h1, h2, h3⟩ := h.held k hk
    exact ⟨c', q, by simpa [Sys.setPc, Sys.setLock, ek] using h1, h2, (hpc q k).2 ⟨h3, ek⟩⟩

omit [DecidableEq T] in
theorem Excl.states (h : Excl s) {st : T → Procstate} (hst : ∀ c p, s.proc c = some p → st p ≠ .RUNNABLE) :
    Excl { s with state := st } :=
  ⟨h.inj, hst, h.owner, h.held, h.panic⟩

theorem Excl.setState (h : Excl s) {st : Procstate} (hst : st = .RUNNABLE → ∀ c, s.proc c ≠ some p) :
    Excl (s.setState p st) := by
  apply h.states
  intro c q hq
  by_cases e : q = p
  · subst e
    rw [update_self]
    intro e
    exact hst e c hq
  · rw [update_of_ne e]
    exact h.runs c q hq

variable [DecidableEq C]

omit [DecidableEq T] in
/-- A process that holds no lock is switched out. -/
theorem Excl.leaveCpu (h : Excl s) (hc : s.proc c = some p) (hh : ∀ l, (s.pc p).holds l = false) :
    Excl (s.setProc c none) ∧ ∀ c', (s.setProc c none).proc c' ≠ some p := by
  have hproc : ∀ c' q, (s.setProc c none).proc c' = some q ↔ s.proc c' = some q ∧ c' ≠ c := by
    intro c' q
    by_cases e : c' = c
    · subst e
      simp [Sys.setProc]
    · simp [Sys.setProc, e]
  refine ⟨⟨?_, ?_, ?_, ?_, h.panic⟩, ?_⟩
  · intro c1 c2 q h1 h2
    exact h.inj c1 c2 q ((hproc c1 q).1 h1).1 ((hproc c2 q).1 h2).1
  · intro c' q hq
    exact h.runs c' q ((hproc c' q).1 hq).1
  · intro l q hq
    obtain ⟨c', h1, h2⟩ := h.owner l q hq
    refine ⟨c', (hproc c' q).2 ⟨h1, ?_⟩, h2⟩
    rintro rfl
    rw [hc, Option.some.injEq] at h1
    subst h1
    have := hh l
    simp only [Sys.setProc] at hq
    rw [hq] at this
    cases this
  · intro l hl
    obtain ⟨c', q, h1, h2, h3⟩ := h.held l hl
    refine ⟨c', q, h1, (hproc c' q).2 ⟨h2, ?_⟩, h3⟩
    rintro rfl
    rw [hc, Option.some.injEq] at h2
    subst h2
    rw [hh l] at h3
    cases h3
  · intro c' hc'
    obtain ⟨h1, h2⟩ := (hproc c' p).1 hc'
    exact h2 (h.inj c' c p h1 hc)

theorem Excl.enterCpu (h : Excl s) (hc : s.proc c = none) (hr : s.state p = .RUNNABLE) :
    Excl ((s.setProc c (some p)).setState p .RUNNING) := by
  have hoff : ∀ c', s.proc c' ≠ some p := by
    intro c' hc'
    exact h.runs c' p hc' hr
  have hproc : ∀ c' q, s.proc c' = some q → (s.setProc c (some p)).proc c' = some q := by
    intro c' q hq
    have e : c' ≠ c := by
      rintro rfl
      rw [hc] at hq
      cases hq
    simpa [Sys.setProc, e] using hq
  refine ⟨?_, ?_, ?_, ?_, h.panic⟩
  · intro c1 c2 q h1 h2
    simp only [Sys.setState, Sys.setProc, update_apply] at h1 h2
    split at h1 <;> split at h2
    next e1 e2 =>
      rw [e1, e2]
    · cases h1
      exact absurd h2 (hoff c2)
    · cases h2
      exact absurd h1 (hoff c1)
    · exact h.inj c1 c2 q h1 h2
  · intro c' q hq
    by_cases e : q = p
    · subst e
      simp [Sys.setState]
    simp only [Sys.setState, update_of_ne e]
    simp only [Sys.setState, Sys.setProc, update_apply] at hq
    split at hq
    · cases hq
      exact absurd rfl e
    · exact h.runs c' q hq
  · intro l q hq
    obtain ⟨c', h1, h2⟩ := h.owner l q hq
    exact ⟨c', hproc c' q h1, h2⟩
  · intro l hl
    obtain ⟨c', q, h1, h2, h3⟩ := h.held l hl
    exact ⟨c', q, h1, hproc c' q h2, h3⟩

omit [DecidableEq T] in
theorem Excl.not_holding (h : Excl s) (hc : s.proc c = some p) (hl : (s.pc p).holds l = false) :
    (s.lock l).holding c = false := by
  by_contra hh
  simp only [Spinlock.holding, Bool.not_eq_false, Bool.and_eq_true, decide_eq_true_eq] at hh
  obtain ⟨c', p', hcpu, hp', hh'⟩ := h.held l hh.1
  rw [hh.2, Option.some.injEq] at hcpu
  rw [← hcpu, hc, Option.some.injEq] at hp'
  rw [← hp', hl] at hh'
  cases hh'

omit [DecidableEq T] in
theorem Excl.holding (h : Excl s) (hc : s.proc c = some p) (hl : (s.pc p).holds l = true) :
    (s.lock l).holding c = true := by
  obtain ⟨c', hc', hlock⟩ := h.owner l p hl
  obtain rfl := h.inj c c' p hc hc'
  rw [hlock]
  simp [Spinlock.holding]

/-- `acquire` does not panic. -/
theorem Excl.acquire_eq (h : Excl s) (hc : s.proc c = some p) (hl : (s.pc p).holds l = false)
    (hs : s.acquire l c p n = some s') :
    (s.lock l).locked = false ∧ s' = (s.setLock l ⟨true, some c⟩).setPc p n := by
  unfold Sys.acquire at hs
  rw [h.not_holding hc hl] at hs
  split at hs
  next hh =>
    cases hh
  · split at hs <;> cases hs
    rename_i hfree
    exact ⟨Bool.eq_false_of_not_eq_true hfree, rfl⟩

/-- Nor does `release`. -/
theorem Excl.release_eq (h : Excl s) (hc : s.proc c = some p) (hl : (s.pc p).holds l = true)
    (hs : s.release l c p n = some s') : s' = (s.setLock l ⟨false, none⟩).setPc p n := by
  unfold Sys.release at hs
  rw [h.holding hc hl, if_pos rfl] at hs
  exact (Option.some.inj hs).symm

end Monitor

end Xv6
