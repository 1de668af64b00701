import Xv6Threading.Sync.Monitor

/-!
# Where a call goes next

The control flow of `goAt`, and which of its steps touch the data and the history. None of this depends on the
locks: a step that panics changes nothing else.
-/

namespace Xv6

open Function

namespace Monitor

variable {ι T C D : Type}

inductive Flow (M : Monitor ι T D) (d : D) : Pc ι → Pc ι → Prop
  | entry (i : ι) : Flow M d (.entry i) (.update i)
  | update (i : ι) : Flow M d (.update i) (.test i)
  | blocked (i : ι) (h : M.blocked i d = true) : Flow M d (.test i) (.sleepAcquire i)
  | passed (i : ι) (h : M.blocked i d = false) : Flow M d (.test i) (.leave i)
  | sleepAcquire (i : ι) : Flow M d (.sleepAcquire i) (.sleepRelease i)
  | sleepRelease (i : ι) : Flow M d (.sleepRelease i) (.sleepChan i)
  | sleepChan (i : ι) : Flow M d (.sleepChan i) (.sleepState i)
  | sleepState (i : ι) : Flow M d (.sleepState i) (.sched i)
  | sched (i : ι) : Flow M d (.sched i) (.asleep i)
  | dispatch (i : ι) : Flow M d (.asleep i) (.tidy i)
  | tidy (i : ι) : Flow M d (.tidy i) (.sleepDone i)
  | sleepDone (i : ι) : Flow M d (.sleepDone i) (.reacquire i)
  | reacquire (i : ι) : Flow M d (.reacquire i) (.test i)
  | signal (i : ι) : Flow M d (.leave i) (.wakeAcquire i)
  | silent (i : ι) : Flow M d (.leave i) (.release i)
  | wakeAcquire (i : ι) : Flow M d (.wakeAcquire i) (.wakeScan i)
  | wakeScan (i : ι) : Flow M d (.wakeScan i) (.wakeRelease i)
  | wakeRelease (i : ι) : Flow M d (.wakeRelease i) (.release i)
  | release (i : ι) : Flow M d (.release i) .out

/-- The data is changed at `update` and at `leave`, and nowhere else. -/
inductive Effect (M : Monitor ι T D) (s s' : Sys ι T C D) : Prop
  | none (hdata : s'.data = s.data) (hentered : s'.entered = s.entered)
  | enter (p : T) (i : ι) (hpc : s.pc p = .update i) (hdata : s'.data = M.enter i p s.data)
      (hentered : s'.entered = s.entered ++ [p]) (hnext : ∀ q, q ≠ p → s'.pc q = s.pc q) (hself : s'.pc p = .test i)
  | leave (p : T) (i : ι) (hpc : s.pc p = .leave i) (hdata : s'.data = M.leave i p s.data)
      (hentered : s'.entered = s.entered) (hnext : ∀ q, q ≠ p → s'.pc q = s.pc q)
      (hself : s'.pc p = .wakeAcquire i ∨ s'.pc p = .release i)

structure Moves (M : Monitor ι T D) (s : Sys ι T C D) (a : Act ι T C) (s' : Sys ι T C D) : Prop where
  pc : ∀ q, s'.pc q = s.pc q ∨ Flow M s.data (s.pc q) (s'.pc q) ∨
    ∃ c i, a = .call c i ∧ s.proc c = some q ∧ s'.pc q = .entry i
  effect : Effect M s s'
  called : s'.called = s.called ∨ ∃ c i p, a = .call c i ∧ s.proc c = some p ∧ s'.called = s.called ++ [p]
  returned : s'.returned = s.returned ∨ ∃ p i, s.pc p = .release i ∧ s'.returned = s.returned ++ [p]

variable [DecidableEq T] [DecidableEq C]
variable {M : Monitor ι T D} {s s' : Sys ι T C D} {a : Act ι T C} {c : C} {p : T} {l : Lock} {n : Pc ι}

omit [DecidableEq C] in
/-- A step of `p` to `n` that does not touch the data. -/
theorem Moves.of_pc (hflow : Flow M s.data (s.pc p) n) (hpc : s'.pc = s.pc ∨ s'.pc = update s.pc p n)
    (hdata : s'.data = s.data) (hentered : s'.entered = s.entered) (hcalled : s'.called = s.called)
    (hreturned : s'.returned = s.returned ∨ ∃ p i, s.pc p = .release i ∧ s'.returned = s.returned ++ [p]) :
    Moves M s a s' := by
  refine ⟨?_, .none hdata hentered, Or.inl hcalled, hreturned⟩
  intro q
  rcases hpc with hpc | hpc
  · exact Or.inl (by rw [hpc])
  rw [hpc]
  by_cases e : q = p
  · subst e
    rw [update_self]
    exact Or.inr (Or.inl hflow)
  · exact Or.inl (update_of_ne e _ _)

omit [DecidableEq T] [DecidableEq C] in
theorem Moves.of_eq (hpc : s'.pc = s.pc) (hdata : s'.data = s.data) (hentered : s'.entered = s.entered)
    (hcalled : s'.called = s.called) (hreturned : s'.returned = s.returned) : Moves M s a s' :=
  ⟨fun q => Or.inl (by rw [hpc]), .none hdata hentered, Or.inl hcalled, Or.inl hreturned⟩

theorem Moves.acquire (hflow : Flow M s.data (s.pc p) n) (hs : s.acquire l c p n = some s') : Moves M s a s' := by
  unfold Sys.acquire at hs
  split at hs
  · cases hs
    exact .of_eq rfl rfl rfl rfl rfl
  · split at hs <;> cases hs
    exact .of_pc hflow (Or.inr rfl) rfl rfl rfl (Or.inl rfl)

theorem Moves.release (hflow : Flow M s.data (s.pc p) n) (hs : s.release l c p n = some s') : Moves M s a s' := by
  unfold Sys.release at hs
  split at hs <;> cases hs
  · exact .of_pc hflow (Or.inr rfl) rfl rfl rfl (Or.inl rfl)
  · exact .of_eq rfl rfl rfl rfl rfl

theorem Moves.go (hs : s.go M c = some s') : Moves M s a s' := by
  obtain ⟨p, -, hs⟩ := Option.bind_eq_some_iff.1 hs
  cases hpc : s.pc p <;> rw [hpc] at hs
  case out => cases hs
  case asleep i => cases hs
  case entry i => exact .acquire (n := .update i) (hpc ▸ .entry i) hs
  case update i =>
    cases hs
    refine ⟨?_, .enter p i hpc rfl rfl ?_ (update_self _ _ _), Or.inl rfl, Or.inl rfl⟩
    · intro q
      by_cases e : q = p
      · subst e
        refine Or.inr (Or.inl ?_)
        rw [hpc]
        simpa [Sys.setPc] using Flow.update i
      · exact Or.inl (update_of_ne e _ _)
    · intro q e
      exact update_of_ne e _ _
  case test i =>
    cases hs
    refine .of_pc ?_ (Or.inr rfl) rfl rfl rfl (Or.inl rfl)
    rw [hpc]
    split
    · exact .blocked i ‹_›
    · exact .passed i (Bool.eq_false_of_not_eq_true ‹_›)
  case sleepAcquire i => exact .acquire (n := .sleepRelease i) (hpc ▸ .sleepAcquire i) hs
  case sleepRelease i => exact .release (n := .sleepChan i) (hpc ▸ .sleepRelease i) hs
  case sleepChan i =>
    cases hs
    exact .of_pc (hpc ▸ .sleepChan i) (Or.inr rfl) rfl rfl rfl (Or.inl rfl)
  case sleepState i =>
    cases hs
    exact .of_pc (hpc ▸ .sleepState i) (Or.inr rfl) rfl rfl rfl (Or.inl rfl)
  case sched i =>
    obtain ⟨s1, h1, rfl⟩ := Option.map_eq_some_iff.1 hs
    unfold Sys.release at h1
    split at h1 <;> cases h1
    · exact .of_pc (hpc ▸ .sched i) (Or.inr rfl) rfl rfl rfl (Or.inl rfl)
    · exact .of_eq rfl rfl rfl rfl rfl
  case tidy i =>
    cases hs
    exact .of_pc (hpc ▸ .tidy i) (Or.inr rfl) rfl rfl rfl (Or.inl rfl)
  case sleepDone i => exact .release (n := .reacquire i) (hpc ▸ .sleepDone i) hs
  case reacquire i => exact .acquire (n := .test i) (hpc ▸ .reacquire i) hs
  case leave i =>
    cases hs
    have hnext : ∀ m, m = (if M.signals i then Pc.wakeAcquire i else .release i) →
        Flow M s.data (.leave i) m ∧ (m = .wakeAcquire i ∨ m = .release i) := by
      rintro m rfl
      split
      · exact ⟨.signal i, Or.inl rfl⟩
      · exact ⟨.silent i, Or.inr rfl⟩
    refine ⟨?_, .leave p i hpc rfl rfl ?_ (hnext _ (update_self p _ s.pc)).2, Or.inl rfl, Or.inl rfl⟩
    · intro q
      by_cases e : q = p
      · subst e
        refine Or.inr (Or.inl ?_)
        rw [hpc]
        exact (hnext _ (update_self q _ s.pc)).1
      · exact Or.inl (update_of_ne e _ _)
    · intro q e
      exact update_of_ne e _ _
  case wakeAcquire i => exact .acquire (n := .wakeScan i) (hpc ▸ .wakeAcquire i) hs
  case wakeScan i =>
    cases hs
    exact .of_pc (hpc ▸ .wakeScan i) (Or.inr rfl) rfl rfl rfl (Or.inl rfl)
  case wakeRelease i => exact .release (n := .release i) (hpc ▸ .wakeRelease i) hs
  case release i =>
    obtain ⟨s1, h1, rfl⟩ := Option.map_eq_some_iff.1 hs
    unfold Sys.release at h1
    split at h1 <;> cases h1
    · split
      · exact .of_pc (hpc ▸ .release i) (Or.inr rfl) rfl rfl rfl (Or.inr ⟨p, i, hpc, rfl⟩)
      · exact .of_pc (hpc ▸ .release i) (Or.inr rfl) rfl rfl rfl (Or.inl rfl)
    · exact .of_eq rfl rfl rfl rfl rfl

theorem Moves.of_step (hs : s.step M a = some s') : Moves M s a s' := by
  unfold Sys.step at hs
  split at hs
  · cases a with
    | call c i =>
      change s.call c i = _ at hs
      unfold Sys.call at hs
      split at hs
      · cases hs
      rename_i p hc
      split at hs <;> cases hs
      refine ⟨?_, .none rfl rfl, Or.inr ⟨c, i, p, rfl, hc, rfl⟩, Or.inl rfl⟩
      intro q
      by_cases e : q = p
      · subst e
        exact Or.inr (Or.inr ⟨c, i, rfl, hc, update_self _ _ _⟩)
      · exact Or.inl (update_of_ne e _ _)
    | go c => exact .go hs
    | dispatch c p =>
      change s.dispatch c p = _ at hs
      unfold Sys.dispatch at hs
      split at hs
      · split at hs <;> cases hs
        next i hpc =>
          exact .of_pc (hpc ▸ .dispatch i) (Or.inr rfl) rfl rfl rfl (Or.inl rfl)
        · exact .of_eq rfl rfl rfl rfl rfl
      · cases hs
    | preempt c =>
      change s.preempt c = _ at hs
      unfold Sys.preempt at hs
      split at hs
      · cases hs
      · split at hs <;> cases hs
        exact .of_eq rfl rfl rfl rfl rfl
    | rouse p =>
      change s.rouse p = _ at hs
      unfold Sys.rouse at hs
      split at hs <;> cases hs
      exact .of_eq rfl rfl rfl rfl rfl
  · cases hs

end Monitor

end Xv6
