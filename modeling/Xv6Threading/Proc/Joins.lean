import Xv6Threading.Proc.Invariant

/-!
# Who waits in `join` (`proc.c:729-773`)

`join` is the loop of `wait` without its way out: it reaps a zombie thread or sleeps, and never looks whether there is a
thread left. The threads it waits for are lost to it in two ways: nobody is left when it looks, or the last one calls
`exec` while it sleeps and gets a page directory of its own. `thread_join` (`ulib.c:112`) tests for a -1 that `join`
does not return.

| here | there |
| --- | --- |
| `Joinable k p q` | entry `q` passes the test of `join` called by `p` (`proc.c:746`), and is in use |
| `InJoin k p` | `p` is asleep in the `sleep` of `join` (`proc.c:771`) |
-/

namespace Xv6

variable {ncpu : Nat} {k k' : Kernel ncpu} {c : Fin ncpu} {p q r : Slot} {a : Act ncpu} {pc : Pc}

def Joinable (k : Kernel ncpu) (p q : Slot) : Prop :=
  (k.pt q).parent = some p ∧ (k.pt q).state ≠ .UNUSED ∧ (k.pt q).pgdir = (k.pt p).pgdir

def InJoin (k : Kernel ncpu) (p : Slot) : Prop := (k.pt p).state = .SLEEPING ∧ k.pc p = .join

/-- Whoever sleeps in `join` has a thread to wait for. -/
def JoinsSomebody (k : Kernel ncpu) : Prop := ∀ p, InJoin k p → ∃ q, Joinable k p q

/-- `join` goes round its loop only with a thread to wait for, and the last thread of a process that sleeps there does not
leave its address space. -/
def ThreadLeft (k : Kernel ncpu) : Act ncpu → Prop
  | .on c .join => ∀ p, k.cpu c = some p → ∃ q, Joinable k p q
  | .on c (.exec d _) => ∀ p r, k.cpu c = some p → (k.pt p).parent = some r → InJoin k r → d ≠ (k.pt r).pgdir →
      ∃ q, q ≠ p ∧ Joinable k r q
  | _ => True

instance (k : Kernel ncpu) (p q : Slot) : Decidable (Joinable k p q) := inferInstanceAs (Decidable (_ ∧ _))

instance (k : Kernel ncpu) (p : Slot) : Decidable (InJoin k p) := inferInstanceAs (Decidable (_ ∧ _))

instance (k : Kernel ncpu) : ∀ a : Act ncpu, Decidable (ThreadLeft k a)
  | .on c .join => inferInstanceAs (Decidable (∀ p, k.cpu c = some p → ∃ q, Joinable k p q))
  | .on c (.exec d _) => inferInstanceAs (Decidable (∀ p r, k.cpu c = some p → (k.pt p).parent = some r → InJoin k r →
      d ≠ (k.pt r).pgdir → ∃ q, q ≠ p ∧ Joinable k r q))
  | .on _ .fork | .on _ (.clone _) | .on _ (.kalloc _) | .on _ (.copyuvm _) | .on _ .share | .on _ .publish
  | .on _ .setRefs | .on _ .exit | .on _ .wait | .on _ (.sleep _) | .on _ .yield | .on _ (.growproc _) =>
    instDecidableTrue
  | .dispatch _ _ _ | .wakeup _ | .wakeupEntry _ _ | .kill _ | .changeTickets _ _ => instDecidableTrue

/-! ## Steps that take no thread away -/

/-- Nobody goes to sleep in `join`, and who sleeps there keeps its threads. -/
def KeepsThreads (k k' : Kernel ncpu) : Prop := ∀ r, InJoin k' r → InJoin k r ∧ ∀ q, Joinable k r q → Joinable k' r q

theorem JoinsSomebody.keeps (h : JoinsSomebody k) (hk : KeepsThreads k k') : JoinsSomebody k' := by
  intro r hr
  obtain ⟨hr, hkeep⟩ := hk r hr
  obtain ⟨q, hq⟩ := h r hr
  exact ⟨q, hkeep q hq⟩

/-- `p`, which does not sleep in `join`, changes the entry `e`: it takes nobody's child away but its own. -/
theorem KeepsThreads.of_entry (p e : Slot) (hpt : ∀ r, r ≠ e → k'.pt r = k.pt r)
    (hpc : ∀ r, r ≠ p → k'.pc r = .join → k.pc r = .join) (hp : ¬ InJoin k' p)
    (he : (k'.pt e).state = .SLEEPING → e ≠ p → (k.pt e).state = .SLEEPING ∧ (k'.pt e).pgdir = (k.pt e).pgdir)
    (hchild : ∀ r, r ≠ p → (k.pt e).parent = some r → (k.pt e).state ≠ .UNUSED →
      (k'.pt e).parent = some r ∧ (k'.pt e).state ≠ .UNUSED ∧ (k'.pt e).pgdir = (k.pt e).pgdir) : KeepsThreads k k' := by
  intro r hr
  have hrp : r ≠ p := by
    rintro rfl
    exact hp hr
  have hsame : (k.pt r).state = .SLEEPING ∧ (k'.pt r).pgdir = (k.pt r).pgdir := by
    by_cases hre : r = e
    · subst hre
      exact he hr.1 hrp
    · rw [← hpt r hre]
      exact ⟨hr.1, rfl⟩
  refine ⟨⟨hsame.1, hpc r hrp hr.2⟩, fun q hq => ?_⟩
  obtain ⟨hpar, hused, hd⟩ := hq
  rw [Joinable, hsame.2, ← hd]
  by_cases hqe : q = e
  · subst hqe
    exact hchild r hrp hpar hused
  · rw [hpt q hqe]
    exact ⟨hpar, hused, rfl⟩

/-- `p` changes its own entry and nothing that `join` looks at. -/
theorem KeepsThreads.of_own (p : Slot) (hpt : ∀ r, r ≠ p → k'.pt r = k.pt r) (hpc : ∀ r, r ≠ p → k'.pc r = k.pc r)
    (hp : ¬ InJoin k' p) (hpar : (k'.pt p).parent = (k.pt p).parent) (hd : (k'.pt p).pgdir = (k.pt p).pgdir)
    (hused : (k'.pt p).state ≠ .UNUSED) : KeepsThreads k k' := by
  refine .of_entry p p hpt (fun r hr h => hpc r hr ▸ h) hp (fun _ h => absurd rfl h) fun r _ hr _ => ?_
  exact ⟨hpar.trans hr, hused, hd⟩

theorem KeepsThreads.of_woken {pt : Ptable} (hw : Woken k.pt pt) : KeepsThreads k { k with pt := pt } := by
  intro r hr
  refine ⟨⟨?_, hr.2⟩, fun q hq => ?_⟩
  · rcases hw.state r with e | ⟨e, -⟩
    · exact e ▸ hr.1
    · exact e
  refine ⟨(hw.parent q).trans hq.1, ?_, (hw.pgdir q).trans (hq.2.2.trans (hw.pgdir r).symm)⟩
  rcases hw.state q with e | ⟨-, e⟩
  · exact e ▸ hq.2.1
  · simp [e]

theorem keepsThreads_exit (k : Kernel ncpu) (c : Fin ncpu) (p : Slot) :
    KeepsThreads k ({ k with pt := k.pt.exitTable p k.initproc }.idle c) := by
  intro r hr
  have hrp : r ≠ p := by
    rintro rfl
    simpa using hr.1
  have hsleep : (k.pt r).state = .SLEEPING := by
    have := hr.1
    rw [Kernel.idle_pt, Ptable.exitTable_state _ _ _ hrp] at this
    split at this
    · cases this
    · exact this
  refine ⟨⟨hsleep, hr.2⟩, fun q hq => ?_⟩
  obtain ⟨hpar, hused, hd⟩ := hq
  refine ⟨?_, ?_, ?_⟩
  · show (k.pt.exitTable p k.initproc q).parent = _
    rw [Ptable.exitTable_parent, hpar, if_neg (by simpa using hrp)]
  · show (k.pt.exitTable p k.initproc q).state ≠ _
    by_cases hqp : q = p
    · subst hqp
      simp
    rw [Ptable.exitTable_state _ _ _ hqp]
    split
    · simp
    · exact hused
  · show (k.pt.exitTable p k.initproc q).pgdir = (k.pt.exitTable p k.initproc r).pgdir
    rw [Ptable.exitTable_frame, Ptable.exitTable_frame k.pt p k.initproc r]
    exact hd

/-- A step on the slot `p` is making. -/
theorem keepsThreads_make (h : Inv k) {np : Slot} (hmk : (k.pc p).makes = some np) (f : Proc → Proc)
    (hpc : pc ≠ .join) (hst : (f (k.pt np)).state ≠ .SLEEPING)
    (hchild : (k.pc p).adopted = true → (f (k.pt np)).parent = (k.pt np).parent ∧ (f (k.pt np)).state ≠ .UNUSED ∧
      (f (k.pt np)).pgdir = (k.pt np).pgdir) : KeepsThreads k ((k.modify np f).setPc p pc) := by
  have hpar := h.make.parent p np hmk
  refine .of_entry p np (by simp +contextual) (by simp +contextual) (by simp [InJoin, hpc]) (by simp [hst]) ?_
  intro r _ hr _
  rw [hpar] at hr
  split at hr
  next had =>
    obtain ⟨h1, h2, h3⟩ := hchild had
    simp only [Kernel.setPc_pt, Kernel.modify_pt, if_true]
    exact ⟨by rw [h1, hpar, if_pos had, hr], h2, h3⟩
  · cases hr

theorem keepsThreads_dispatch (k : Kernel ncpu) (c : Fin ncpu) (p : Slot) : KeepsThreads k ({ k with
    pt := k.pt.modify p fun q => { q with state := .RUNNING }
    cpu := Function.update k.cpu c (some p) }.resume p) := by
  obtain ⟨-, -, hne, hself, -⟩ := resume_spec { k with
    pt := k.pt.modify p fun q => { q with state := .RUNNING }
    cpu := Function.update k.cpu c (some p) } p
  generalize Kernel.resume _ p = k' at *
  dsimp only at hne hself
  have hrun : (k'.pt p).state = .RUNNING ∧ (k'.pt p).parent = (k.pt p).parent ∧ (k'.pt p).pgdir = (k.pt p).pgdir := by
    rw [hself]
    simp
  refine .of_own p (fun r hr => (hne r hr).1.trans (Ptable.modify_ne _ _ hr)) (fun r hr => (hne r hr).2) ?_ hrun.2.1
    hrun.2.2 (by simp [hrun.1])
  simp [InJoin, hrun.1]

/-! ## The two steps that may -/

/-- Without a thread `join` goes to sleep all the same. -/
theorem join_sleeps (hno : ∀ q, ¬ Joinable k p q) : k.join c p = k.sleepOn c p (some (.proc p)) .join := by
  have hz : k.pt.zombieThread p = none := by
    cases hz : k.pt.zombieThread p with
    | none => rfl
    | some z =>
      obtain ⟨hpar, hd, hst⟩ := Ptable.zombieThread_some hz
      exact absurd ⟨hpar, by simp [hst], hd⟩ (hno z)
  unfold Kernel.join
  rw [hz]

/-- Going to sleep changes nothing that the test of `join` looks at. -/
theorem joinable_sleepOn (hp : (k.pt p).state ≠ .UNUSED) (chan : Option Chan) (pc : Pc) :
    Joinable (k.sleepOn c p chan pc) r q ↔ Joinable k r q := by
  have hsame : ∀ s, ((k.sleepOn c p chan pc).pt s).parent = (k.pt s).parent ∧
      ((k.sleepOn c p chan pc).pt s).pgdir = (k.pt s).pgdir ∧
      (((k.sleepOn c p chan pc).pt s).state = .UNUSED ↔ (k.pt s).state = .UNUSED) := by
    intro s
    by_cases e : s = p
    · subst e
      simp [Kernel.sleepOn, hp]
    · simp [Kernel.sleepOn, e]
  obtain ⟨hpar, hd, hst⟩ := hsame q
  rw [Joinable, Joinable, hpar, hd, (hsame r).2.1, ne_eq, ne_eq, hst]

theorem JoinsSomebody.sleepOn (h : Inv k) (hc : k.cpu c = some p) (hj : JoinsSomebody k) (chan : Option Chan)
    (hleft : pc = .join → ∃ q, Joinable k p q) : JoinsSomebody (k.sleepOn c p chan pc) := by
  have hrun := h.cpu.running c p hc
  have hsame := fun r q =>
    joinable_sleepOn (c := c) (r := r) (q := q) (show (k.pt p).state ≠ .UNUSED by simp [hrun]) chan pc
  intro r hr
  by_cases e : r = p
  · subst e
    obtain ⟨q, hq⟩ := hleft (by simpa [Kernel.sleepOn] using hr.2)
    exact ⟨q, (hsame r q).2 hq⟩
  · have hr' : InJoin k r := by simpa [InJoin, Kernel.sleepOn, e] using hr
    obtain ⟨q, hq⟩ := hj r hr'
    exact ⟨q, (hsame r q).2 hq⟩

/-- After `exec` in `p`, what others may join is as before, and they may join `p` if it has their page directory. -/
theorem joinable_exec (hr : r ≠ p) (d : Pgdir) (sz : BitVec 32) :
    Joinable (k.modify p fun q => { q with pgdir := d, sz := sz }) r q ↔
      if q = p then (k.pt p).parent = some r ∧ (k.pt p).state ≠ .UNUSED ∧ d = (k.pt r).pgdir else Joinable k r q := by
  split
  next e =>
    subst e
    simp [Joinable, hr]
  next e =>
    simp [Joinable, hr, e]

theorem JoinsSomebody.exec (h : Inv k) (hc : k.cpu c = some p) (hj : JoinsSomebody k) {d : Pgdir} {sz : BitVec 32}
    (hleft : ∀ r, (k.pt p).parent = some r → InJoin k r → d ≠ (k.pt r).pgdir → ∃ q, q ≠ p ∧ Joinable k r q) :
    JoinsSomebody (k.modify p fun q => { q with pgdir := d, sz := sz }) := by
  have hrun := h.cpu.running c p hc
  intro r hin
  have hrp : r ≠ p := by
    rintro rfl
    simp [InJoin, hrun] at hin
  have hr : InJoin k r := by simpa [InJoin, hrp] using hin
  by_cases hother : ∃ q, q ≠ p ∧ Joinable k r q
  · obtain ⟨q, hqp, hq⟩ := hother
    exact ⟨q, (joinable_exec hrp d sz).2 (by rwa [if_neg hqp])⟩
  -- then `p` was the only one
  obtain ⟨q, hq⟩ := hj r hr
  obtain rfl : q = p := by
    by_contra hne
    exact hother ⟨q, hne, hq⟩
  have hd : d = (k.pt r).pgdir := by
    by_contra hd
    exact hother (hleft r hq.1 hr hd)
  exact ⟨q, (joinable_exec hrp d sz).2 (by rw [if_pos rfl]; exact ⟨hq.1, hq.2.1, hd⟩)⟩

/-! ## Runs -/

theorem joinsSomebody_move (h : Inv k) (hj : JoinsSomebody k) (hleft : ThreadLeft k a)
    (hm : Move k a k') : JoinsSomebody k' := by
  cases hm with
  | full hc => exact hj
  | @alloc c p o np hc hpc hf m ho =>
    -- the slot is nobody's child yet
    have hpar := h.tree.unused np (Ptable.freeSlot_some hf)
    exact hj.keeps (.of_entry p np (by simp +contextual [Ptable.modify_ne]) (by simp +contextual) (by simp [InJoin])
      (by simp) (by simp [hpar]))
  | @kstack c p o np m hc _ | @giveUp c p o hc _ =>
    have hrun := h.cpu.running c p hc
    exact hj.keeps (.of_own p (by simp) (by simp +contextual) (by simp [InJoin]) rfl rfl (by simp [hrun]))
  | discard hc hmk had d => exact hj.keeps (keepsThreads_make h hmk _ (by simp) (by simp) (by simp [had]))
  | @fill c p o np m hc hpc d us tk htk =>
    have hmk : (k.pc p).makes = some np := by rw [hpc]; rfl
    exact hj.keeps (keepsThreads_make h hmk _ (by simp) (by simp [h.make.embryo p np hmk]) (by simp [hpc, Pc.adopted]))
  | @publish c p np m hc hpc tk pc hpc' htk =>
    have hrun := h.cpu.running c p hc
    refine hj.keeps (.of_entry p np (by simp +contextual) ?_ ?_ (by simp) ?_)
    · intro r hr
      simp only [Kernel.setPc_pc, if_neg hr]
      split
      · simp
      · exact id
    · rintro ⟨hsl, -⟩
      simp only [Kernel.setPc_pt, Kernel.modify_pt] at hsl
      split at hsl
      · cases hsl
      · rw [hrun] at hsl
        cases hsl
    · intro r _ hr _
      simp [hr]
  | @refs c p o np hc hpc =>
    exact hj.keeps (.of_entry p np (by simp +contextual) (by simp +contextual) (by simp [InJoin]) (by simp +contextual)
      (by simp +contextual))
  | exit hc hpc hi => exact hj.keeps (keepsThreads_exit k _ _)
  | @reap c p o z hc hpc hpar hz =>
    -- the zombie was a child of `p` itself
    refine hj.keeps (.of_entry p z (by simp +contextual [Ptable.reap, Ptable.modify_ne]) (by simp +contextual)
      (by simp [InJoin]) (by simp [Ptable.reap]) fun r hr hpr => ?_)
    rw [hpar] at hpr
    exact absurd (Option.some.inj hpr).symm hr
  | @sleep c p o hc hpc chan pc hmk hch hw hjo ho =>
    refine hj.sleepOn h hc chan fun e => ?_
    cases ho e
    exact hleft p hc
  | @yield c p o hc hs =>
    exact hj.keeps (.of_own p (by simp +contextual) (by simp) (by simp [InJoin]) (by simp) (by simp) (by simp))
  | @exec c p o hc hpc d sz ho =>
    refine hj.exec h hc fun r hpar hr hd => ?_
    rcases ho with rfl | rfl
    · exact hleft p r hc hpar hr hd
    -- `growproc`: then `r` has another thread to wait for
    obtain ⟨q, hq⟩ := hj r hr
    refine ⟨q, ?_, hq⟩
    rintro rfl
    exact hd hq.2.2
  | dispatch hc hr hw => exact hj.keeps (keepsThreads_dispatch k _ _)
  | wakeup chan => exact hj.keeps (.of_woken (woken_wakeup1 _ _))
  | wakeupEntry m q =>
    unfold Kernel.wakeupEntry
    split
    next hq =>
      exact hj.keeps (.of_woken (.modify (.inr ⟨hq.1, rfl⟩) rfl rfl rfl))
    · exact hj
  | kill pid => exact hj.keeps (.of_woken (woken_kill _ _))
  | changeTickets pid tk => exact hj.keeps (.of_woken (woken_changeTickets _ _ _))

theorem joinsSomebody_boot (d : Pgdir) : JoinsSomebody (.boot d : Kernel ncpu) := by
  rintro p ⟨-, hpc⟩
  cases hpc

theorem not_joinsSomebody (h : Inv k) (hs : k.step a = some k') (hno : ¬ ThreadLeft k a) : ¬ JoinsSomebody k' := by
  unfold ThreadLeft at hno
  split at hno
  next c =>
    obtain ⟨p, hc, hs⟩ := Option.bind_eq_some_iff.1 hs
    obtain ⟨-, rfl⟩ : (k.pc p = .run ∨ k.pc p = .join) ∧ _ := by simpa [Kernel.op] using hs
    have hno : ∀ q, ¬ Joinable k p q := by
      intro q hq
      refine hno fun p' hp' => ?_
      rw [hc] at hp'
      cases hp'
      exact ⟨q, hq⟩
    rw [join_sleeps hno]
    intro hj
    have hused : (k.pt p).state ≠ .UNUSED := by simp [h.cpu.running c p hc]
    obtain ⟨q, hq⟩ := hj p ⟨by simp [Kernel.sleepOn], by simp [Kernel.sleepOn]⟩
    exact hno q ((joinable_sleepOn hused _ _).1 hq)
  next c d sz =>
    obtain ⟨p, hc, hs⟩ := Option.bind_eq_some_iff.1 hs
    obtain ⟨-, rfl⟩ : k.pc p = .run ∧ _ := by simpa [Kernel.op] using hs
    intro hj
    refine hno fun p' r hp' hpar hr hd => ?_
    rw [hc] at hp'
    cases hp'
    have hrp : r ≠ p := by
      rintro rfl
      simp [InJoin, h.cpu.running c r hc] at hr
    obtain ⟨q, hq⟩ := hj r (by simpa [InJoin, hrp] using hr)
    rw [joinable_exec hrp] at hq
    split at hq
    · exact absurd hq.2.2 hd
    next hqp =>
      exact ⟨q, hqp, hq⟩
  · exact absurd trivial hno

/-- **`join` with a thread to wait for.** In every run in which no turn of the loop of `join` finds the caller without a
thread, and no `exec` takes the last thread from a process asleep in `join`, whoever sleeps there has a thread to wait
for. A step that breaks this condition leaves a process that sleeps for nobody: without a thread `join` does not return,
it sleeps. -/
theorem join_waits_for_somebody :
    (∀ k : Kernel ncpu, (kernel ncpu).ReachBy ThreadLeft k → JoinsSomebody k) ∧
    (∀ (k k' : Kernel ncpu) (a : Act ncpu), (kernel ncpu).Reach k → k.step a = some k' → ¬ ThreadLeft k a →
      ¬ JoinsSomebody k') ∧
    ∀ (k k' : Kernel ncpu) (c : Fin ncpu) (p : Slot), k.cpu c = some p → (∀ q, ¬ Joinable k p q) →
      k.step (.on c .join) = some k' → InJoin k' p := by
  refine ⟨fun k hk => ?_, fun k k' a hk hs hno => not_joinsSomebody (inv_reach hk) hs hno, fun k k' c p hc hno hs => ?_⟩
  · refine (hk.inv (I := fun k => Inv k ∧ JoinsSomebody k) ?_ ?_).2
    · rintro _ ⟨d, rfl⟩
      exact ⟨inv_boot d, joinsSomebody_boot d⟩
    · rintro k a k' ⟨hi, hj⟩ hleft hs
      exact ⟨inv_move hi (move_of_step hs), joinsSomebody_move hi hj hleft (move_of_step hs)⟩
  simp only [Kernel.step, hc, Option.bind_some, Kernel.op] at hs
  split at hs
  · cases hs
    rw [join_sleeps hno]
    exact ⟨by simp [Kernel.sleepOn], by simp [Kernel.sleepOn]⟩
  · cases hs

/-- Init makes a thread and waits for it. -/
theorem join_waits_for_thread : ∃ k : Kernel 1, InJoin k 0 ∧ ∃ q, Joinable k 0 q := by
  obtain ⟨k, hk, hp⟩ := Machine.exists_reachBy (M := kernel 1) (G := ThreadLeft) ⟨7, rfl⟩
    [.dispatch 0 0 0, .on 0 (.clone 0), .on 0 (.kalloc true), .on 0 .share, .on 0 .publish, .on 0 .setRefs, .on 0 .join]
    (fun k => InJoin k 0) (by decide +kernel)
  have hin := of_decide_eq_true hp
  exact ⟨k, hin, join_waits_for_somebody.1 k hk 0 hin⟩

/-- Init, with no child at all, sleeps in `join`. -/
theorem join_waits_for_nobody : ∃ k : Kernel 1, (kernel 1).Reach k ∧ InJoin k 0 ∧ ∀ q, (k.pt q).parent ≠ some 0 := by
  obtain ⟨k, hk, hp⟩ := Machine.exists_reachBy (M := kernel 1) (G := fun _ _ => True) ⟨7, rfl⟩
    [.dispatch 0 0 0, .on 0 .join] (fun k => InJoin k 0 ∧ ∀ q, (k.pt q).parent ≠ some 0) (by decide)
  obtain ⟨hin, hno⟩ := of_decide_eq_true hp
  exact ⟨k, hk, hin, hno⟩

end Xv6
