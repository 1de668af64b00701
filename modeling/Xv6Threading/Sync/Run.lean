import Xv6Threading.Sync.Sleepers

/-!
# Every step of a call (`proc.c:539-596`, `spinlock.c:24-68`)

`Inv` holds in every run, whatever the data is and whoever changes it. `Wait` says that no wakeup is lost; it asks
that the data is changed by the calls only and that a call which unblocks another signals.
-/

namespace Xv6

open Function

namespace Monitor

variable {ι T C D : Type} {s s' : Sys ι T C D} {c : C} {p : T} {l : Lock} {n : Pc ι}
variable [DecidableEq T] [DecidableEq C]

structure Hist (s : Sys ι T C D) : Prop where
  called : ∀ p, s.called.count p = s.entered.count p + (s.pc p).calling
  entered : ∀ p, s.entered.count p = s.returned.count p + (s.pc p).inside

/-- What holds whatever happens to the data. -/
structure Inv (s : Sys ι T C D) : Prop where
  excl : Excl s
  sleep : Sleep s
  hist : Hist s

/-- What a step from `s` to `s'` keeps. -/
def Keeps (M : Monitor ι T D) (s s' : Sys ι T C D) : Prop := Inv s' ∧ (Signals M → Wait M s → Wait M s')

/-- From `a` to `b` nothing changes but the locks held. -/
structure Quiet (M : Monitor ι T D) (d : D) (a b : Pc ι) : Prop where
  chan : b.onChan = a.onChan
  slept : b.slept = a.slept
  asleep : ∀ i, b ≠ .asleep i
  past : ∀ i, b = .leave i → M.blocked i d = false
  awaits : ∀ i, b.awaits = some i → M.blocked i d = true ∨ a.awaits = some i
  signalling : M.signalling d a → M.signalling d b

section

variable {M : Monitor ι T D}

omit [DecidableEq C]

theorem inv_boot (d : D) : Inv (.boot d : Sys ι T C D) :=
  ⟨excl_boot d, sleep_boot d, fun _ => rfl, fun _ => rfl⟩

theorem Hist.set (h : Hist s) (hpc : s'.pc = update s.pc p n)
    (hother : ∀ q, q ≠ p → s'.called.count q = s.called.count q ∧ s'.entered.count q = s.entered.count q ∧
      s'.returned.count q = s.returned.count q) (hcalled : s'.called.count p = s'.entered.count p + n.calling)
    (hentered : s'.entered.count p = s'.returned.count p + n.inside) : Hist s' := by
  constructor
  · intro q
    rw [hpc]
    by_cases e : q = p
    · rw [e, update_self, hcalled]
    · rw [update_of_ne e, (hother q e).1, (hother q e).2.1, h.called q]
  · intro q
    rw [hpc]
    by_cases e : q = p
    · rw [e, update_self, hentered]
    · rw [update_of_ne e, (hother q e).2.1, (hother q e).2.2, h.entered q]

theorem Hist.move (h : Hist s) (hpc : s'.pc = update s.pc p n)
    (hg : s'.called = s.called ∧ s'.entered = s.entered ∧ s'.returned = s.returned)
    (hc : n.calling = (s.pc p).calling) (hi : n.inside = (s.pc p).inside) : Hist s' := by
  obtain ⟨h1, h2, h3⟩ := hg
  apply h.set hpc
  · intro q _
    rw [h1, h2, h3]
    exact ⟨rfl, rfl, rfl⟩
  · rw [h1, h2, hc, h.called p]
  · rw [h2, h3, hi, h.entered p]

omit [DecidableEq C] in
/-- One more `p` in a list does not change how often `q` is in it. -/
theorem count_concat_of_ne {l : List T} {q : T} (e : q ≠ p) : (l ++ [p]).count q = l.count q := by
  simp [List.count_append, Ne.symm e]

omit [DecidableEq T] in
theorem Sleep.quiet (h : Sleep s) (ho : Only p s s') (hpc : s'.pc p = n) (hst : s'.state p = s.state p)
    (hchan : s'.chan p = s.chan p) (hn : n.onChan = (s.pc p).onChan ∧ n.slept = (s.pc p).slept)
    (hne : ∀ i, n ≠ .asleep i) : Sleep s' := by
  apply h.move ho
  · rw [hpc, hchan, hn.1]
    exact h.chan p
  · rw [hpc, hst, hn.2]
    exact h.sleeping p
  · rw [hpc, hst, hn.2]
    exact h.slept p
  · intro i hi
    rw [hpc] at hi
    exact absurd hi (hne i)

omit [DecidableEq T] in
theorem Wait.quiet (h : Wait M s) (hq : Quiet M s.data (s.pc p) n) (ho : Only p s s') (hdata : s'.data = s.data)
    (hpc : s'.pc p = n) (hst : s'.state p = s.state p) : Wait M s' := by
  apply h.move ho hdata
  · intro i hi
    rw [hpc] at hi
    exact hq.past i hi
  · intro i hi hr
    rw [hpc] at hi
    rw [hst] at hr
    exact (hq.awaits i hi).imp_right fun ha => ⟨ha, hr⟩
  · rw [hpc]
    exact hq.signalling

/-- A step that is quiet, of which it is known that it keeps the locks in order. -/
theorem Inv.quiet (h : Inv s) (hq : Quiet M s.data (s.pc p) n) (hx : Excl s') (hh : Hist s') (ho : Only p s s')
    (hdata : s'.data = s.data) (hpc : s'.pc p = n) (hst : s'.state p = s.state p) (hchan : s'.chan p = s.chan p) :
    Keeps M s s' :=
  ⟨⟨hx, h.sleep.quiet ho hpc hst hchan ⟨hq.chan, hq.slept⟩ hq.asleep, hh⟩, fun _ hw => hw.quiet hq ho hdata hpc hst⟩

variable [DecidableEq C] {a : Pc ι}

theorem Inv.acquire (h : Inv s) (hc : s.proc c = some p) (hpc : s.pc p = a)
    (hq : Quiet M s.data a n) (hcalls : n.calling = a.calling ∧ n.inside = a.inside)
    (hl : a.holds l = false ∧ n.holds l = true) (hh : n.holds l.other = a.holds l.other)
    (hs : s.acquire l c p n = some s') : Keeps M s s' := by
  subst hpc
  obtain ⟨hfree, rfl⟩ := h.excl.acquire_eq hc hl.1 hs
  exact h.quiet hq (h.excl.acquire hc hfree hl.2 hh) (h.hist.move rfl ⟨rfl, rfl, rfl⟩ hcalls.1 hcalls.2)
    ((Only.refl p s).setLock _ _).setPc rfl (update_self _ _ _) rfl rfl

theorem Inv.release (h : Inv s) (hc : s.proc c = some p) (hpc : s.pc p = a)
    (hq : Quiet M s.data a n) (hcalls : n.calling = a.calling ∧ n.inside = a.inside)
    (hl : a.holds l = true ∧ n.holds l = false) (hh : n.holds l.other = a.holds l.other)
    (hs : s.release l c p n = some s') : Keeps M s s' := by
  subst hpc
  obtain rfl := h.excl.release_eq hc hl.1 hs
  exact h.quiet hq (h.excl.release hl.1 hl.2 hh) (h.hist.move rfl ⟨rfl, rfl, rfl⟩ hcalls.1 hcalls.2)
    ((Only.refl p s).setLock _ _).setPc rfl (update_self _ _ _) rfl rfl

/-! ### One case for each kind of step -/

variable {i : ι}

theorem Inv.sched (h : Inv s) (hc : s.proc c = some p) (hpc : s.pc p = .sched i) :
    Keeps M s (((s.setLock .ptable ⟨false, none⟩).setPc p (.asleep i)).setProc c none) := by
  have hself : (((s.setLock .ptable ⟨false, none⟩).setPc p (.asleep i)).setProc c none).pc p = .asleep i := by
    simp [Sys.setPc, Sys.setProc]
  have hfree : ∀ l, (((s.setLock .ptable ⟨false, none⟩).setPc p (.asleep i)).pc p).holds l = false := by
    intro l
    simp [Sys.setPc, Pc.holds]
  have hx : Excl ((s.setLock .ptable ⟨false, none⟩).setPc p (.asleep i)) :=
    h.excl.release (by rw [hpc]; rfl) rfl (by rw [hpc]; rfl)
  have ho : Only p s (((s.setLock .ptable ⟨false, none⟩).setPc p (.asleep i)).setProc c none) :=
    ((Only.refl p s).setLock _ _).setPc.setProc (Or.inl rfl)
  obtain ⟨hx, hoff⟩ := hx.leaveCpu hc hfree
  refine ⟨⟨hx, ?_, h.hist.move rfl ⟨rfl, rfl, rfl⟩ (by rw [hpc]; rfl) (by rw [hpc]; rfl)⟩, fun _ hw => ?_⟩
  · apply h.sleep.move ho
    · rw [hself]
      exact (h.sleep.chan p).trans (by rw [hpc]; rfl)
    · intro _
      rw [hself]
      rfl
    · intro _
      exact h.sleep.slept p (by rw [hpc]; rfl)
    · intro j _
      exact hoff
  apply hw.move ho rfl
  · intro j hj
    rw [hself] at hj
    cases hj
  · intro j hj hst
    rw [hself] at hj
    exact Or.inr ⟨by rw [hpc]; exact hj, hst⟩
  · intro hsig
    rw [hpc] at hsig
    cases hsig

omit [DecidableEq C]

section

variable (h : Inv s)
include h

theorem Inv.enter (hpc : s.pc p = .update i) :
    Keeps M s ({ s with data := M.enter i p s.data, entered := s.entered ++ [p] }.setPc p (.test i)) := by
  have hholds : ∀ l, (Pc.test i).holds l = (s.pc p).holds l := by
    intro l
    rw [hpc]
    cases l <;> rfl
  have ho : Only p s ({ s with data := M.enter i p s.data, entered := s.entered ++ [p] }.setPc p (.test i)) :=
    (Only.refl p s).setPc.congr rfl rfl rfl rfl
  have hcalled := h.hist.called p
  have hentered := h.hist.entered p
  rw [hpc] at hcalled hentered
  refine ⟨⟨(h.excl.move hholds).congr rfl rfl rfl rfl rfl, ?_, h.hist.set rfl ?_ ?_ ?_⟩, fun hM hw => ?_⟩
  · exact h.sleep.quiet ho (update_self _ _ _) rfl rfl (by rw [hpc]; exact ⟨rfl, rfl⟩) nofun
  · intro q e
    exact ⟨rfl, count_concat_of_ne e, rfl⟩
  · simpa [Sys.setPc, Pc.calling, List.count_append] using hcalled
  · simpa [Sys.setPc, Pc.inside, List.count_append] using hentered
  refine hw.change h.excl (by rw [hpc]; rfl) rfl (by rintro j ⟨⟩) ?_ ?_ rfl rfl rfl
  · intro j hb hb'
    exact hM.enter j i p s.data hb hb'
  · intro hsig
    rw [hpc] at hsig
    cases hsig

theorem Inv.leave (hpc : s.pc p = .leave i) :
    Keeps M s ({ s with data := M.leave i p s.data }.setPc p (if M.signals i then .wakeAcquire i else .release i)) := by
  have ho : Only p s ({ s with data := M.leave i p s.data }.setPc p
      (if M.signals i then .wakeAcquire i else .release i)) := (Only.refl p s).setPc.congr rfl rfl rfl rfl
  refine ⟨⟨Excl.congr (h.excl.move ?_) rfl rfl rfl rfl rfl, ?_, h.hist.move rfl ⟨rfl, rfl, rfl⟩ ?_ ?_⟩, fun hM hw => ?_⟩
  · intro l
    rw [hpc]
    split <;> cases l <;> rfl
  · refine h.sleep.quiet ho (update_self _ _ _) rfl rfl ?_ ?_
    · rw [hpc]
      split <;> exact ⟨rfl, rfl⟩
    · intro j
      split <;> rintro ⟨⟩
  · rw [hpc]
    split <;> rfl
  · rw [hpc]
    split <;> rfl
  refine hw.change h.excl (by rw [hpc]; rfl) ?_ ?_ ?_ ?_ rfl rfl rfl
  · split <;> rfl
  · intro j
    split <;> rintro ⟨⟩
  · intro j hb hb'
    rw [if_pos (hM.leave j i p s.data hb hb')]
    exact hM.leave j i p s.data hb hb'
  · intro hsig
    rw [hpc] at hsig
    have hsig : M.signals i = true := hsig
    rw [if_pos hsig]
    exact hsig

/-- The two assignments to `p->chan` in `sleep`. -/
theorem Inv.setChan (hpc : s.pc p = a) (hslept : a.slept = false ∧ n.slept = false)
    (hn : ∀ i, n ≠ .asleep i ∧ n ≠ .leave i) (hawaits : ∀ i, n.awaits = some i → a.awaits = some i)
    (hsig : ¬ M.signalling s.data a) (hholds : ∀ l, n.holds l = a.holds l)
    (hcalls : n.calling = a.calling ∧ n.inside = a.inside) : Keeps M s ((s.setChan p n.onChan).setPc p n) := by
  subst hpc
  have hself : ((s.setChan p n.onChan).setPc p n).pc p = n := by simp [Sys.setPc]
  have ho : Only p s ((s.setChan p n.onChan).setPc p n) := ((Only.refl p s).setChan _).setPc
  refine ⟨⟨(h.excl.move hholds).congr rfl rfl rfl rfl rfl, ?_, h.hist.move rfl ⟨rfl, rfl, rfl⟩ hcalls.1 hcalls.2⟩,
    fun _ hw => ?_⟩
  · apply h.sleep.move ho
    · rw [hself]
      simp [Sys.setPc, Sys.setChan]
    · intro hs
      have := h.sleep.sleeping p hs
      rw [hslept.1] at this
      cases this
    · rw [hself, hslept.2]
      rintro ⟨⟩
    · intro i hi
      rw [hself] at hi
      exact absurd hi (hn i).1
  apply hw.move ho rfl
  · intro i hi
    rw [hself] at hi
    exact absurd hi (hn i).2
  · intro i hi hst
    rw [hself] at hi
    exact Or.inr ⟨hawaits i hi, hst⟩
  · intro hs
    exact absurd hs hsig

theorem Inv.sleepState (hc : s.proc c = some p) (hpc : s.pc p = .sleepState i) :
    Keeps M s ((s.setState p .SLEEPING).setPc p (.sched i)) := by
  have hself : ((s.setState p .SLEEPING).setPc p (.sched i)).pc p = .sched i := by simp [Sys.setPc]
  have ho : Only p s ((s.setState p .SLEEPING).setPc p (.sched i)) := ((Only.refl p s).setState _).setPc
  refine ⟨⟨Excl.move (h.excl.setState (by rintro ⟨⟩)) ?_, ?_,
    h.hist.move rfl ⟨rfl, rfl, rfl⟩ (by rw [hpc]; rfl) (by rw [hpc]; rfl)⟩, fun _ hw => ?_⟩
  · intro l
    show _ = (s.pc p).holds l
    rw [hpc]
    cases l <;> rfl
  · apply h.sleep.move ho
    · rw [hself]
      exact (h.sleep.chan p).trans (by rw [hpc]; rfl)
    · intro _
      rw [hself]
      rfl
    · intro _
      simp [Sys.setPc, Sys.setState]
    · rw [hself]
      rintro j ⟨⟩
  apply hw.move ho rfl
  · rw [hself]
    rintro j ⟨⟩
  · intro j hj _
    rw [hself] at hj
    exact Or.inr ⟨by rw [hpc]; exact hj, h.excl.runs c p hc⟩
  · rw [hpc]
    rintro ⟨⟩

/-- The test of the `while` loop. -/
theorem Inv.test (hpc : s.pc p = .test i) :
    Keeps M s (s.setPc p (if M.blocked i s.data then .sleepAcquire i else .leave i)) := by
  have hq : Quiet M s.data (s.pc p) (if M.blocked i s.data then .sleepAcquire i else .leave i) := by
    rw [hpc]
    split
    next hb =>
      refine ⟨rfl, rfl, nofun, nofun, ?_, ?_⟩
      · rintro j ⟨⟩
        exact Or.inl hb
      · rintro ⟨-, hn⟩
        rw [hb] at hn
        cases hn
    next hb =>
      refine ⟨rfl, rfl, nofun, ?_, nofun, fun hsig => hsig.1⟩
      rintro j ⟨⟩
      exact Bool.eq_false_of_not_eq_true hb
  refine h.quiet hq (h.excl.move ?_) (h.hist.move rfl ⟨rfl, rfl, rfl⟩ ?_ ?_) (Only.refl p s).setPc rfl
    (update_self _ _ _) rfl rfl
  · intro l
    rw [hpc]
    split <;> cases l <;> rfl
  · rw [hpc]
    split <;> rfl
  · rw [hpc]
    split <;> rfl

theorem Inv.call (hs : s.call c i = some s') : Keeps M s s' := by
  unfold Sys.call at hs
  split at hs
  · cases hs
  rename_i p hc
  split at hs <;> cases hs
  rename_i hpc
  have hq : Quiet M s.data (s.pc p) (.entry i) := by
    rw [hpc]
    exact ⟨rfl, rfl, nofun, nofun, nofun, nofun⟩
  have hcalled := h.hist.called p
  have hentered := h.hist.entered p
  rw [hpc] at hcalled hentered
  refine h.quiet hq (Excl.congr (h.excl.move ?_) rfl rfl rfl rfl rfl) (h.hist.set rfl ?_ ?_ ?_)
    ((Only.refl p s).setPc.congr rfl rfl rfl rfl) rfl (update_self _ _ _) rfl rfl
  · intro l
    rw [hpc]
    cases l <;> rfl
  · intro q e
    exact ⟨count_concat_of_ne e, rfl, rfl⟩
  · simpa [Sys.setPc, Pc.calling, List.count_append] using hcalled
  · simpa [Sys.setPc, Pc.inside] using hentered

theorem Inv.rouse (hs : s.rouse p = some s') : Keeps M s s' := by
  unfold Sys.rouse at hs
  split at hs <;> cases hs
  rename_i hcond
  obtain ⟨hsl, hfree⟩ := hcond
  have hoff : ∀ c, s.proc c ≠ some p := by
    intro c hc
    have hslept := h.sleep.sleeping p hsl
    cases hpc : s.pc p <;> rw [hpc] at hslept <;> try cases hslept
    case sched i =>
      rw [h.excl.locked (p := p) (by rw [hpc]; rfl)] at hfree
      cases hfree
    case asleep i => exact h.sleep.asleep p i hpc c hc
  have ho : Only p s (s.setState p .RUNNABLE) := (Only.refl p s).setState _
  refine ⟨⟨h.excl.setState fun _ => hoff, ?_, h.hist.called, h.hist.entered⟩, fun _ hw => ?_⟩
  · apply h.sleep.move ho (h.sleep.chan p)
    · intro hst
      simp [Sys.setState] at hst
    · intro _
      simp [Sys.setState]
    · exact h.sleep.asleep p
  · apply hw.move ho rfl (hw.past p)
    · intro j _ hst
      simp [Sys.setState] at hst
    · exact fun hsig => hsig

theorem Inv.returns (hpc : s.pc p = .release i) :
    Keeps M s { (s.setLock .lk ⟨false, none⟩).setPc p .out with returned := s.returned ++ [p] } := by
  have hq : Quiet M s.data (s.pc p) .out := by
    rw [hpc]
    exact ⟨rfl, rfl, nofun, nofun, nofun, nofun⟩
  have hcalled := h.hist.called p
  have hentered := h.hist.entered p
  rw [hpc] at hcalled hentered
  have hx : Excl ((s.setLock .lk ⟨false, none⟩).setPc p .out) :=
    h.excl.release (by rw [hpc]; rfl) rfl (by rw [hpc]; rfl)
  refine h.quiet hq (hx.congr rfl rfl rfl rfl rfl) (h.hist.set rfl ?_ ?_ ?_)
    ((Only.refl p s).setPc.congr rfl rfl rfl rfl) rfl (update_self _ _ _) rfl rfl
  · intro q e
    exact ⟨rfl, rfl, count_concat_of_ne e⟩
  · simpa [Sys.setPc, Sys.setLock, Pc.calling] using hcalled
  · simpa [Sys.setPc, Sys.setLock, Pc.inside, List.count_append] using hentered

end

variable [DecidableEq C]

theorem Inv.go (h : Inv s) (hs : s.go M c = some s') : Keeps M s s' := by
  obtain ⟨p, hc, hs⟩ := Option.bind_eq_some_iff.1 hs
  cases hpc : s.pc p <;> rw [hpc] at hs
  case out => cases hs
  case asleep i => cases hs
  case entry i =>
    refine h.acquire (l := .lk) (n := .update i) hc hpc ?_ ⟨rfl, rfl⟩ ⟨rfl, rfl⟩ rfl hs
    exact ⟨rfl, rfl, nofun, nofun, nofun, nofun⟩
  case update i =>
    cases hs
    exact h.enter hpc
  case test i =>
    cases hs
    exact h.test hpc
  case sleepAcquire i =>
    refine h.acquire (l := .ptable) (n := .sleepRelease i) hc hpc ?_ ⟨rfl, rfl⟩ ⟨rfl, rfl⟩ rfl hs
    exact ⟨rfl, rfl, nofun, nofun, fun j hj => Or.inr hj, nofun⟩
  case sleepRelease i =>
    refine h.release (l := .lk) (n := .sleepChan i) hc hpc ?_ ⟨rfl, rfl⟩ ⟨rfl, rfl⟩ rfl hs
    exact ⟨rfl, rfl, nofun, nofun, fun j hj => Or.inr hj, nofun⟩
  case sleepChan i =>
    cases hs
    refine h.setChan (n := .sleepState i) hpc ⟨rfl, rfl⟩ ?_ (fun j hj => hj) ?_ ?_ ⟨rfl, rfl⟩
    · intro j
      constructor <;> rintro ⟨⟩
    · rintro ⟨⟩
    · intro l
      cases l <;> rfl
  case sleepState i =>
    cases hs
    exact h.sleepState hc hpc
  case sched i =>
    obtain ⟨s1, h1, rfl⟩ := Option.map_eq_some_iff.1 hs
    obtain rfl := h.excl.release_eq hc (by rw [hpc]; rfl) h1
    exact h.sched hc hpc
  case tidy i =>
    cases hs
    refine h.setChan (n := .sleepDone i) hpc ⟨rfl, rfl⟩ ?_ ?_ ?_ ?_ ⟨rfl, rfl⟩
    · intro j
      constructor <;> rintro ⟨⟩
    · rintro j ⟨⟩
    · rintro ⟨⟩
    · intro l
      cases l <;> rfl
  case sleepDone i =>
    refine h.release (l := .ptable) (n := .reacquire i) hc hpc ?_ ⟨rfl, rfl⟩ ⟨rfl, rfl⟩ rfl hs
    exact ⟨rfl, rfl, nofun, nofun, nofun, nofun⟩
  case reacquire i =>
    refine h.acquire (l := .lk) (n := .test i) hc hpc ?_ ⟨rfl, rfl⟩ ⟨rfl, rfl⟩ rfl hs
    exact ⟨rfl, rfl, nofun, nofun, nofun, nofun⟩
  case leave i =>
    cases hs
    exact h.leave hpc
  case wakeAcquire i =>
    refine h.acquire (l := .ptable) (n := .wakeScan i) hc hpc ?_ ⟨rfl, rfl⟩ ⟨rfl, rfl⟩ rfl hs
    exact ⟨rfl, rfl, nofun, nofun, nofun, fun hsig => hsig⟩
  case wakeScan i =>
    cases hs
    exact ⟨⟨h.excl.scan h.sleep hpc, h.sleep.scan hpc,
      h.hist.move rfl ⟨rfl, rfl, rfl⟩ (by rw [hpc]; rfl) (by rw [hpc]; rfl)⟩, fun _ _ => wait_scan h.excl h.sleep hpc⟩
  case wakeRelease i =>
    refine h.release (l := .ptable) (n := .release i) hc hpc ?_ ⟨rfl, rfl⟩ ⟨rfl, rfl⟩ rfl hs
    exact ⟨rfl, rfl, nofun, nofun, nofun, nofun⟩
  case release i =>
    obtain ⟨s1, h1, rfl⟩ := Option.map_eq_some_iff.1 hs
    obtain rfl := h.excl.release_eq hc (by rw [hpc]; rfl) h1
    have hpanic : ((s.setLock .lk ⟨false, none⟩).setPc p .out).panic = none := h.excl.panic
    rw [if_pos hpanic]
    exact h.returns hpc

theorem Inv.dispatch (h : Inv s) (hs : s.dispatch c p = some s') : Keeps M s s' := by
  unfold Sys.dispatch at hs
  split at hs
  next hcond =>
    obtain ⟨hr, hc, hfree⟩ := hcond
    have hx := h.excl.enterCpu hc hr
    have ho : Only p s ((s.setProc c (some p)).setState p .RUNNING) :=
      ((Only.refl p s).setProc (Or.inr rfl)).setState _
    split at hs <;> cases hs
    next i hpc =>
      have hself : ((((s.setProc c (some p)).setState p .RUNNING).setLock .ptable ⟨true, some c⟩).setPc p
          (.tidy i)).pc p = .tidy i := by simp [Sys.setPc]
      refine ⟨⟨hx.acquire (by simp [Sys.setProc, Sys.setState]) hfree rfl ?_, ?_,
        h.hist.move rfl ⟨rfl, rfl, rfl⟩ (by rw [hpc]; rfl) (by rw [hpc]; rfl)⟩, fun _ hw => ?_⟩
      · show _ = (s.pc p).holds _
        rw [hpc]
        rfl
      · apply h.sleep.move (ho.setLock _ _).setPc
        · rw [hself]
          exact (h.sleep.chan p).trans (by rw [hpc]; rfl)
        · intro hst
          simp [Sys.setState, Sys.setLock, Sys.setPc] at hst
        · rw [hself]
          rintro ⟨⟩
        · rw [hself]
          rintro j ⟨⟩
      apply hw.move (ho.setLock _ _).setPc rfl
      · rw [hself]
        rintro j ⟨⟩
      · rw [hself]
        rintro j ⟨⟩
      · rw [hpc]
        rintro ⟨⟩
    next hpc =>
      have hoff : ∀ l, (s.pc p).holds l = false := by
        intro l
        apply h.excl.off
        intro c' hc'
        exact h.excl.runs c' p hc' hr
      obtain ⟨-, hawaits, hslept, hne⟩ := Pc.of_preemptible (Pc.preemptible_of_free hoff fun i e => hpc i e)
      refine ⟨⟨hx, ?_, h.hist.called, h.hist.entered⟩, fun _ hw => ?_⟩
      · apply h.sleep.move ho (h.sleep.chan p)
        · intro hst
          simp [Sys.setState] at hst
        · intro hsl
          rw [show ((s.setProc c (some p)).setState p .RUNNING).pc p = s.pc p from rfl, hslept] at hsl
          cases hsl
        · intro j hj
          exact absurd hj (hne j).1
      · apply hw.move ho rfl (hw.past p)
        · intro j hj _
          rw [show ((s.setProc c (some p)).setState p .RUNNING).pc p = s.pc p from rfl, hawaits] at hj
          cases hj
        · exact fun hsig => hsig
  · cases hs

theorem Inv.preempt (h : Inv s) (hs : s.preempt c = some s') : Keeps M s s' := by
  unfold Sys.preempt at hs
  split at hs
  · cases hs
  rename_i p hc
  split at hs <;> cases hs
  rename_i hcond
  obtain ⟨hfree, hawaits, hslept, hne⟩ := Pc.of_preemptible hcond.1
  obtain ⟨hx, hoff⟩ := h.excl.leaveCpu hc hfree
  have ho : Only p s ((s.setProc c none).setState p .RUNNABLE) :=
    ((Only.refl p s).setProc (Or.inl rfl)).setState _
  refine ⟨⟨hx.setState fun _ => hoff, ?_, h.hist.called, h.hist.entered⟩, fun _ hw => ?_⟩
  · apply h.sleep.move ho (h.sleep.chan p)
    · intro hst
      simp [Sys.setState] at hst
    · intro _
      simp [Sys.setState]
    · intro j hj
      exact absurd hj (hne j).1
  · apply hw.move ho rfl (hw.past p)
    · intro j _ hst
      simp [Sys.setState] at hst
    · exact fun hsig => hsig

/-- **One step.** The locks, the sleepers and the history stay in order whatever the calls do; if who unblocks
signals, no wakeup is lost. -/
theorem Inv.step (h : Inv s) {a : Act ι T C} (hs : s.step M a = some s') : Keeps M s s' := by
  unfold Sys.step at hs
  rw [if_pos h.excl.panic] at hs
  cases a with
  | call c i => exact h.call hs
  | go c => exact h.go hs
  | dispatch c p => exact h.dispatch hs
  | preempt c => exact h.preempt hs
  | rouse p => exact h.rouse hs

omit [DecidableEq C] in
theorem Hist.entered_le (h : Hist s) : s.entered.length ≤ s.called.length := by
  apply List.Subperm.length_le
  apply List.subperm_ext_iff.2
  intro p _
  rw [h.called p]
  exact Nat.le_add_right _ _

omit [DecidableEq T] [DecidableEq C] in
/-- A process that sleeps while `lk` is free is blocked. -/
theorem Wait.blocked_of_free (hw : Wait M s) (hx : Excl s) (hsl : Sleep s) (hfree : (s.lock .lk).locked = false)
    (hp : s.state p = .SLEEPING) : ∃ i, (s.pc p).awaits = some i ∧ M.blocked i s.data = true := by
  have hslept := hsl.sleeping p hp
  obtain ⟨i, hi⟩ : ∃ i, (s.pc p).awaits = some i := by
    cases hpc : s.pc p <;> rw [hpc] at hslept <;> first | exact ⟨_, rfl⟩ | cases hslept
  refine ⟨i, hi, ?_⟩
  rcases hw.woken p i hi (by rw [hp]; rintro ⟨⟩) with hb | ⟨q, hq⟩
  · exact hb
  · rw [hx.locked (signalling_holds hq)] at hfree
    cases hfree

end

end Monitor

end Xv6
