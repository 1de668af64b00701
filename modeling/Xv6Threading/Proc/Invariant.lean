import Xv6Threading.Proc.Kernel

/-!
# What every state of the process table satisfies

Four invariants of the machine of `Proc.Kernel`, each with one rule for the steps that do not
concern it (`of_same`) and one lemma for every step that does:

* `CpuInv`: `c->proc` and `RUNNING` agree;
* `MakeInv`: a slot being made is an `EMBRYO` of exactly one maker, which is alive;
* `TreeInv`: whoever is alive or a zombie has a live parent, and free slots have none;
* `ReapInv`: nobody sleeps in `wait` or `join` over a child it should have reaped.
-/

namespace Xv6

variable {ncpu : Nat} {k k' : Kernel ncpu} {c : Fin ncpu} {p np z : Slot}

structure CpuInv (k : Kernel ncpu) : Prop where
  running : ∀ c p, k.cpu c = some p → (k.pt p).state = .RUNNING
  once : ∀ c d p, k.cpu c = some p → k.cpu d = some p → c = d
  somewhere : ∀ p, (k.pt p).state = .RUNNING → ∃ c, k.cpu c = some p

structure MakeInv (k : Kernel ncpu) : Prop where
  maker_live : ∀ p np, (k.pc p).makes = some np → (k.pt p).state.live = true
  embryo : ∀ p np, (k.pc p).makes = some np → (k.pt np).state = .EMBRYO
  once : ∀ p q np, (k.pc p).makes = some np → (k.pc q).makes = some np → p = q
  /-- The parent is written between the two critical sections of the maker. -/
  parent : ∀ p np, (k.pc p).makes = some np → (k.pt np).parent = if (k.pc p).adopted then some p else none

structure TreeInv (k : Kernel ncpu) : Prop where
  init_live : (k.pt k.initproc).state.live = true
  init_root : (k.pt k.initproc).parent = none
  unused : ∀ q, (k.pt q).state = .UNUSED → (k.pt q).parent = none
  parent : ∀ q, (k.pt q).state.live = true ∨ (k.pt q).state = .ZOMBIE → q ≠ k.initproc →
    ∃ r, (k.pt q).parent = some r ∧ (k.pt r).state.live = true ∧ r ≠ q

structure ReapInv (k : Kernel ncpu) : Prop where
  /-- Both loops sleep on the caller's own address. -/
  chan : ∀ p, (k.pt p).state = .SLEEPING → k.pc p = .wait ∨ k.pc p = .join → (k.pt p).chan = some (.proc p)
  waiting : ∀ p, (k.pt p).state = .SLEEPING → k.pc p = .wait →
    ∀ z, (k.pt z).parent = some p → (k.pt z).state ≠ .ZOMBIE
  joining : ∀ p, (k.pt p).state = .SLEEPING → k.pc p = .join →
    ∀ z, (k.pt z).parent = some p → (k.pt z).pgdir = (k.pt p).pgdir → (k.pt z).state ≠ .ZOMBIE

structure Inv (k : Kernel ncpu) : Prop where
  cpu : CpuInv k
  make : MakeInv k
  tree : TreeInv k
  reap : ReapInv k

/-! ## Steps that do not concern an invariant -/

theorem CpuInv.of_same (h : CpuInv k) (hcpu : k'.cpu = k.cpu)
    (hrun : ∀ q, (k'.pt q).state = .RUNNING ↔ (k.pt q).state = .RUNNING) : CpuInv k' := by
  refine ⟨?_, ?_, ?_⟩
  · intro c p hc
    rw [hcpu] at hc
    exact (hrun p).2 (h.running c p hc)
  · intro c d p hc hd
    rw [hcpu] at hc hd
    exact h.once c d p hc hd
  · intro p hp
    rw [hcpu]
    exact h.somewhere p ((hrun p).1 hp)

/-- The process on `c` stops running. -/
theorem CpuInv.leave (h : CpuInv k) (hc : k.cpu c = some p) (hcpu : ∀ d, k'.cpu d = if d = c then none else k.cpu d)
    (hp : (k'.pt p).state ≠ .RUNNING)
    (hrun : ∀ q, q ≠ p → ((k'.pt q).state = .RUNNING ↔ (k.pt q).state = .RUNNING)) : CpuInv k' := by
  have hne : ∀ d q, d ≠ c → k.cpu d = some q → q ≠ p := by
    rintro d q hd hq rfl
    exact hd (h.once d c q hq hc)
  refine ⟨?_, ?_, ?_⟩
  · intro d q hd
    rw [hcpu] at hd
    split at hd
    · cases hd
    next hdc =>
      exact (hrun q (hne d q hdc hd)).2 (h.running d q hd)
  · intro d e q hd he
    rw [hcpu] at hd he
    split at hd
    · cases hd
    · split at he
      · cases he
      · exact h.once d e q hd he
  intro q hq
  have hqp : q ≠ p := by
    rintro rfl
    exact hp hq
  obtain ⟨d, hd⟩ := h.somewhere q ((hrun q hqp).1 hq)
  have hdc : d ≠ c := by
    rintro rfl
    exact hqp (Option.some.inj (hd.symm.trans hc))
  exact ⟨d, by rw [hcpu, if_neg hdc, hd]⟩

/-- A process that was not running starts on an idle CPU. -/
theorem CpuInv.enter (h : CpuInv k) (hc : k.cpu c = none) (hp : (k.pt p).state ≠ .RUNNING)
    (hcpu : ∀ d, k'.cpu d = if d = c then some p else k.cpu d)
    (hrun : ∀ q, (k'.pt q).state = .RUNNING ↔ q = p ∨ (k.pt q).state = .RUNNING) : CpuInv k' := by
  have hne : ∀ d, k.cpu d ≠ some p := fun d hd => hp (h.running d p hd)
  refine ⟨?_, ?_, ?_⟩
  · intro d q hd
    rw [hcpu] at hd
    split at hd
    · exact (hrun q).2 (.inl (Option.some.inj hd).symm)
    · exact (hrun q).2 (.inr (h.running d q hd))
  · intro d e q hd he
    rw [hcpu] at hd he
    split at hd <;> split at he
    · simp_all
    · exact absurd (hd ▸ he) (hne e)
    · exact absurd (he ▸ hd) (hne d)
    · exact h.once d e q hd he
  intro q hq
  rcases (hrun q).1 hq with rfl | hq
  · exact ⟨c, by rw [hcpu, if_pos rfl]⟩
  obtain ⟨d, hd⟩ := h.somewhere q hq
  have hdc : d ≠ c := by
    rintro rfl
    rw [hc] at hd
    cases hd
  exact ⟨d, by rw [hcpu, if_neg hdc, hd]⟩

theorem MakeInv.of_same (h : MakeInv k) (hmk : ∀ q, (k'.pc q).makes = (k.pc q).makes)
    (had : ∀ q, (k'.pc q).adopted = (k.pc q).adopted)
    (hlive : ∀ q np, (k.pc q).makes = some np → (k'.pt q).state.live = true)
    (hemb : ∀ q np, (k.pc q).makes = some np → (k.pt np).state = .EMBRYO →
      (k'.pt np).state = .EMBRYO ∧ (k'.pt np).parent = (k.pt np).parent) : MakeInv k' := by
  refine ⟨fun p np hp => ?_, fun p np hp => ?_, fun p q np hp hq => ?_, fun p np hp => ?_⟩ <;>
    have hp' := hmk p ▸ hp
  · exact hlive p np hp'
  · exact (hemb p np hp' (h.embryo p np hp')).1
  · exact h.once p q np hp' (hmk q ▸ hq)
  · rw [(hemb p np hp' (h.embryo p np hp')).2, had p]
    exact h.parent p np hp'

/-- `p` starts, carries on or stops making a slot that nobody else makes. -/
theorem MakeInv.of_maker (h : MakeInv k) (p : Slot) (hoth : ∀ q, q ≠ p → k'.pc q = k.pc q ∨ (k'.pc q).makes = none)
    (hkeep : ∀ q x, q ≠ p → (k.pc q).makes = some x →
      (k'.pt q).state.live = true ∧ (k'.pt x).state = .EMBRYO ∧ (k'.pt x).parent = (k.pt x).parent)
    (hp : ∀ x, (k'.pc p).makes = some x → (k'.pt p).state.live = true ∧ (k'.pt x).state = .EMBRYO ∧
      (k'.pt x).parent = (if (k'.pc p).adopted then some p else none) ∧ ∀ q, q ≠ p → (k.pc q).makes ≠ some x) :
    MakeInv k' := by
  have hold : ∀ q x, q ≠ p → (k'.pc q).makes = some x → k'.pc q = k.pc q := by
    intro q x hq hx
    rcases hoth q hq with e | e
    · exact e
    · rw [e] at hx
      cases hx
  refine ⟨?_, ?_, ?_, ?_⟩
  · intro q x hx
    by_cases e : q = p
    · subst e; exact (hp x hx).1
    · exact (hkeep q x e (hold q x e hx ▸ hx)).1
  · intro q x hx
    by_cases e : q = p
    · subst e; exact (hp x hx).2.1
    · exact (hkeep q x e (hold q x e hx ▸ hx)).2.1
  · intro q r x hq hr
    by_cases e : q = p <;> by_cases e' : r = p
    · rw [e, e']
    · subst e
      exact absurd (hold r x e' hr ▸ hr) ((hp x hq).2.2.2 r e')
    · subst e'
      exact absurd (hold q x e hq ▸ hq) ((hp x hr).2.2.2 q e)
    · exact h.once q r x (hold q x e hq ▸ hq) (hold r x e' hr ▸ hr)
  intro q x hx
  by_cases e : q = p
  · subst e; exact (hp x hx).2.2.1
  · have hq := hold q x e hx
    rw [(hkeep q x e (hq ▸ hx)).2.2, hq]
    exact h.parent q x (hq ▸ hx)

/-- What happens to the parent of a slot being made is no concern of the tree. -/
theorem TreeInv.of_same (h : TreeInv k) (hi : k'.initproc = k.initproc)
    (hlive : ∀ q, (k'.pt q).state.live = (k.pt q).state.live)
    (hz : ∀ q, (k'.pt q).state = .ZOMBIE → (k.pt q).state = .ZOMBIE)
    (hpar : ∀ q, (k'.pt q).state ≠ .EMBRYO → (k'.pt q).parent = (k.pt q).parent)
    (hu : ∀ q, (k'.pt q).state = .UNUSED → (k.pt q).parent = none) : TreeInv k' := by
  have hne : ∀ q, (k'.pt q).state.live = true → (k'.pt q).state ≠ .EMBRYO := by
    intro q hq he
    rw [he] at hq
    cases hq
  have hil : (k'.pt k.initproc).state.live = true := (hlive _).trans h.init_live
  refine ⟨?_, ?_, ?_, ?_⟩
  · rw [hi]
    exact hil
  · rw [hi, hpar _ (hne _ hil)]
    exact h.init_root
  · intro q hq
    rw [hpar q (by simp [hq])]
    exact hu q hq
  intro q hq hqi
  rw [hi] at hqi
  have hq' : (k'.pt q).state ≠ .EMBRYO := by
    rcases hq with hq | hq
    · exact hne q hq
    · simp [hq]
  rw [hlive] at hq
  obtain ⟨r, hr, hrl, hrq⟩ := h.parent q (hq.imp_right (hz q)) hqi
  exact ⟨r, by rw [hpar q hq', hr], by rw [hlive, hrl], hrq⟩

theorem ReapInv.of_same (h : ReapInv k)
    (hs : ∀ q, (k'.pt q).state = .SLEEPING → k'.pc q = .wait ∨ k'.pc q = .join →
      (k.pt q).state = .SLEEPING ∧ k.pc q = k'.pc q ∧ (k'.pt q).chan = (k.pt q).chan ∧
        (k'.pt q).pgdir = (k.pt q).pgdir)
    (hz : ∀ z, (k'.pt z).state = .ZOMBIE → (k.pt z).state = .ZOMBIE ∧ (k'.pt z).parent = (k.pt z).parent ∧
      (k'.pt z).pgdir = (k.pt z).pgdir) : ReapInv k' := by
  refine ⟨?_, ?_, ?_⟩
  · intro q hq hpc
    obtain ⟨h1, h2, h3, -⟩ := hs q hq hpc
    rw [h3]
    exact h.chan q h1 (h2 ▸ hpc)
  · intro q hq hpc z hpar hzom
    obtain ⟨h1, h2, -, -⟩ := hs q hq (.inl hpc)
    obtain ⟨z1, z2, -⟩ := hz z hzom
    exact h.waiting q h1 (h2.trans hpc) z (z2 ▸ hpar) z1
  · intro q hq hpc z hpar hd hzom
    obtain ⟨h1, h2, -, h4⟩ := hs q hq (.inr hpc)
    obtain ⟨z1, z2, z3⟩ := hz z hzom
    exact h.joining q h1 (h2.trans hpc) z (z2 ▸ hpar) (z3 ▸ h4 ▸ hd) z1

/-! ## Wakeups -/

/-- Some sleepers have become `RUNNABLE`; parents, channels and page directories are as before. -/
structure Woken (pt pt' : Ptable) : Prop where
  state : ∀ q, (pt' q).state = (pt q).state ∨ (pt q).state = .SLEEPING ∧ (pt' q).state = .RUNNABLE
  parent : ∀ q, (pt' q).parent = (pt q).parent
  chan : ∀ q, (pt' q).chan = (pt q).chan
  pgdir : ∀ q, (pt' q).pgdir = (pt q).pgdir

variable {f : Proc → Proc} {pt : Ptable} {q : Slot}

theorem Woken.modify
    (hst : (f (pt q)).state = (pt q).state ∨ (pt q).state = .SLEEPING ∧ (f (pt q)).state = .RUNNABLE)
    (hpar : (f (pt q)).parent = (pt q).parent) (hch : (f (pt q)).chan = (pt q).chan)
    (hd : (f (pt q)).pgdir = (pt q).pgdir) : Woken pt (pt.modify q f) := by
  constructor <;> intro r <;> rw [Ptable.modify_apply] <;> split
  · subst r; exact hst
  · exact .inl rfl
  · subst r; exact hpar
  · rfl
  · subst r; exact hch
  · rfl
  · subst r; exact hd
  · rfl

theorem woken_wakeup1 (pt : Ptable) (chan : Option Chan) : Woken pt (pt.wakeup1 chan) := by
  constructor <;> intro q <;> rw [Ptable.wakeup1_eq]
  split
  · exact .inr ⟨(‹_ ∧ _› : _ ∧ _).1, rfl⟩
  · exact .inl rfl

theorem woken_kill (pt : Ptable) (pid : BitVec 32) : Woken pt (pt.kill pid).1 := by
  unfold Ptable.kill
  split
  · refine .modify ?_ rfl rfl rfl
    unfold Ptable.killed
    split
    · exact .inr ⟨‹_›, rfl⟩
    · exact .inl rfl
  · exact ⟨fun _ => .inl rfl, fun _ => rfl, fun _ => rfl, fun _ => rfl⟩

theorem woken_changeTickets (pt : Ptable) (pid tk : BitVec 32) : Woken pt (pt.changeTickets pid tk) := by
  unfold Ptable.changeTickets
  split
  · exact .modify (.inl rfl) rfl rfl rfl
  · exact ⟨fun _ => .inl rfl, fun _ => rfl, fun _ => rfl, fun _ => rfl⟩

theorem Inv.woken (h : Inv k) (hw : Woken k.pt pt) : Inv { k with pt := pt } := by
  have hlive : ∀ q, (pt q).state.live = (k.pt q).state.live := by
    intro q
    rcases hw.state q with e | ⟨e, e'⟩
    · rw [e]
    · rw [e, e']; rfl
  have hst : ∀ q s, s ≠ .SLEEPING → s ≠ .RUNNABLE → ((pt q).state = s ↔ (k.pt q).state = s) := by
    intro q s h1 h2
    rcases hw.state q with e | ⟨e, e'⟩
    · rw [e]
    · rw [e, e']; exact ⟨fun hs => absurd hs.symm h2, fun hs => absurd hs.symm h1⟩
  refine ⟨h.cpu.of_same rfl fun q => hst q _ (by decide) (by decide), ?_, ?_, ?_⟩
  · refine h.make.of_same (fun _ => rfl) (fun _ => rfl) ?_ ?_
    · intro q np hq
      rw [hlive]
      exact h.make.maker_live q np hq
    · intro _ q _ hq
      exact ⟨(hst q _ (by decide) (by decide)).2 hq, hw.parent q⟩
  · refine h.tree.of_same rfl hlive (fun q hq => (hst q _ (by decide) (by decide)).1 hq)
      (fun q _ => hw.parent q) ?_
    intro q hq
    exact h.tree.unused q ((hst q _ (by decide) (by decide)).1 hq)
  apply h.reap.of_same
  · intro q hq _
    rcases hw.state q with e | ⟨-, e'⟩
    · exact ⟨e.symm.trans hq, rfl, hw.chan q, hw.pgdir q⟩
    · rw [e'] at hq
      cases hq
  · intro q hq
    exact ⟨(hst q _ (by decide) (by decide)).1 hq, hw.parent q, hw.pgdir q⟩

/-! ## The other steps -/

variable {pc : Pc}

theorem adopted_of_makes (h : pc.makes = none) : pc.adopted = false := by
  cases pc <;> first | rfl | cases h

/-- A step that only moves `p` on inside its call. -/
theorem Inv.setPc (h : Inv k) (hmk : pc.makes = (k.pc p).makes) (had : pc.adopted = (k.pc p).adopted)
    (hw : pc ≠ .wait) (hj : pc ≠ .join) : Inv (k.setPc p pc) := by
  refine ⟨h.cpu.of_same rfl fun _ => .rfl, ?_, ?_, ?_⟩
  · refine h.make.of_same ?_ ?_ (fun q np => h.make.maker_live q np) fun _ _ _ hq => ⟨hq, rfl⟩
    · intro q
      rw [Kernel.setPc_pc]; split
      · subst q; exact hmk
      · rfl
    · intro q
      rw [Kernel.setPc_pc]; split
      · subst q; exact had
      · rfl
  · exact h.tree.of_same rfl (fun _ => rfl) (fun _ hq => hq) (fun _ _ => rfl) h.tree.unused
  refine h.reap.of_same ?_ fun q hq => ⟨hq, rfl, rfl⟩
  intro q hq hpc
  rw [Kernel.setPc_pc] at hpc ⊢
  split at hpc
  · exact absurd hpc (by simp [hw, hj])
  next e =>
    rw [if_neg e]
    exact ⟨hq, rfl, rfl, rfl⟩

theorem live_of_running (h : CpuInv k) (hc : k.cpu c = some p) : (k.pt p).state.live = true := by
  rw [h.running c p hc]; rfl

section

variable (h : Inv k) {m : Maker}
include h

/-- A step of the maker `p` on a slot that is free or being made, by nobody else. Such a slot is
nobody's parent, and `wait` and `join` ignore it. -/
theorem Inv.edit (hp : (k.pt p).state.live = true) (hold : (k.pt np).state = .UNUSED ∨ (k.pt np).state = .EMBRYO)
    (hnew : (f (k.pt np)).state = .EMBRYO ∨
      (f (k.pt np)).state = .UNUSED ∧ (f (k.pt np)).parent = none ∧ (k.pt np).parent = none)
    (hoth : ∀ q, q ≠ p → (k.pc q).makes ≠ some np) (hw : pc ≠ .wait) (hj : pc ≠ .join)
    (hmk : ∀ x, pc.makes = some x → x = np ∧ (f (k.pt np)).state = .EMBRYO ∧
      (f (k.pt np)).parent = if pc.adopted then some p else none) (nextpid : BitVec 32) :
    Inv ({ k with pt := k.pt.modify np f, nextpid := nextpid }.setPc p pc) := by
  have hpt : ∀ q, q ≠ np → k.pt.modify np f q = k.pt q := fun q hq => Ptable.modify_ne _ _ hq
  have hidle : ∀ st : Procstate, st = .UNUSED ∨ st = .EMBRYO →
      st.live = false ∧ st ≠ .RUNNING ∧ st ≠ .ZOMBIE ∧ st ≠ .SLEEPING := by
    rintro st (rfl | rfl) <;> decide
  obtain ⟨o1, o2, -, -⟩ := hidle _ hold
  obtain ⟨n1, n2, n3, n4⟩ := hidle (f (k.pt np)).state (hnew.symm.imp_left And.left)
  have hlive : ∀ q, (k.pt q).state.live = true → q ≠ np := by
    rintro q hq rfl
    simp [o1] at hq
  refine ⟨h.cpu.of_same rfl fun q => ?_, h.make.of_maker p (fun q hq => ?_) (fun q x hq hx => ?_) fun x hx => ?_,
    h.tree.of_same rfl (fun q => ?_) (fun q => ?_) (fun q => ?_) (fun q => ?_),
    h.reap.of_same (fun q => ?_) (fun q => ?_)⟩
  case refine_2 => left; simp [hq]
  case refine_3 =>
    have h1 := h.make.maker_live q x hx
    have hxn : x ≠ np := by rintro rfl; exact hoth q hq hx
    simp [hpt q (hlive q h1), hpt x hxn, h1, h.make.embryo q x hx]
  case refine_4 =>
    simp only [Kernel.setPc_pc, if_true] at hx ⊢
    obtain ⟨rfl, h1, h2⟩ := hmk x hx
    exact ⟨by simp [hpt p (hlive p hp), hp], by simp [h1], by simp [h2], hoth⟩
  all_goals
    by_cases e : q = np
    · subst e
      simp only [Kernel.setPc_pt, Ptable.modify_self]
      grind
    · have hu := h.tree.unused q
      simp only [Kernel.setPc_pt, hpt q e, Kernel.setPc_pc] <;> grind

theorem Inv.alloc (hc : k.cpu c = some p) (hf : (k.pt np).state = .UNUSED) (m : Maker) (pid nextpid : BitVec 32) :
    Inv ({ k with
      pt := k.pt.modify np fun q => { q with state := .EMBRYO, pid := pid }
      nextpid := nextpid }.setPc p (.kstack m np)) := by
  refine h.edit (live_of_running h.cpu hc) (.inl hf) (.inl rfl) ?_ (by simp) (by simp) ?_ _
  · intro q _ hq
    have := h.make.embryo q np hq
    simp [hf] at this
  · intro x hx
    exact ⟨(Option.some.inj hx).symm, rfl, h.tree.unused np hf⟩

theorem Inv.discard (hc : k.cpu c = some p) (hmk : (k.pc p).makes = some np)
    (had : (k.pc p).adopted = false) (d : Pgdir) :
    Inv ((k.modify np fun q => { q with pgdir := d, state := .UNUSED }).setPc p .run) := by
  have hpar : (k.pt np).parent = none := by simpa [had] using h.make.parent p np hmk
  refine h.edit (live_of_running h.cpu hc) (.inr (h.make.embryo p np hmk)) (.inr ⟨rfl, hpar,
    hpar⟩) ?_ (by simp) (by simp) ?_ _
  · intro q hqp hq
    exact hqp (h.make.once q p np hq hmk)
  · intro x hx
    cases hx

theorem Inv.fill (hc : k.cpu c = some p) (hpc : k.pc p = .fill m np)
    (hst : ∀ q, (f q).state = q.state) (hpar : ∀ q, (f q).parent = some p) :
    Inv ((k.modify np f).setPc p (.publish m np)) := by
  have hmk : (k.pc p).makes = some np := by rw [hpc]; rfl
  have hemb : (f (k.pt np)).state = .EMBRYO := (hst _).trans (h.make.embryo p np hmk)
  refine h.edit (live_of_running h.cpu hc) (.inr (h.make.embryo p np hmk)) (.inl hemb) ?_ (by simp)
    (by simp) ?_ _
  · intro q hqp hq
    exact hqp (h.make.once q p np hq hmk)
  · intro x hx
    exact ⟨(Option.some.inj hx).symm, hemb, hpar _⟩

/-- The new process joins the tree below its maker. -/
theorem Inv.publish (hc : k.cpu c = some p) (hpc : k.pc p = .publish m np)
    (hmk' : pc.makes = none) (tk : BitVec 32) :
    Inv (((k.modify np fun q => { q with tickets := tk, state := .RUNNABLE }).setPc np .run).setPc p pc) := by
  have hmk : (k.pc p).makes = some np := by rw [hpc]; rfl
  have hemb := h.make.embryo p np hmk
  have hpar : (k.pt np).parent = some p := by simpa [hpc, Pc.adopted] using h.make.parent p np hmk
  have hrun := h.cpu.running c p hc
  have hpn : p ≠ np := by rintro rfl; simp [hemb] at hrun
  have hlive : ∀ q, (k.pt q).state.live = true → q ≠ np := by
    rintro q hq rfl
    simp [hemb, Procstate.live] at hq
  refine ⟨h.cpu.of_same rfl ?_, h.make.of_maker p ?_ ?_ ?_, ⟨?_, ?_, ?_, ?_⟩, h.reap.of_same ?_ ?_⟩
  · intro q
    by_cases e : q = np <;> simp [e, hemb]
  · intro q hq
    by_cases e : q = np <;> simp [e, hq, hpn.symm, Pc.makes]
  · intro q x hq hx
    have h1 := h.make.maker_live q x hx
    have hxn : x ≠ np := by rintro rfl; exact hq (h.make.once q p x hx hmk)
    simp [hlive q h1, hxn, h1, h.make.embryo q x hx]
  · intro x hx
    simp [hmk'] at hx
  · simp [hlive _ h.tree.init_live, h.tree.init_live]
  · simp [hlive _ h.tree.init_live, h.tree.init_root]
  · intro q
    by_cases e : q = np
    · simp [e]
    · simpa [e] using h.tree.unused q
  · intro q hq hqi
    by_cases e : q = np
    · subst e
      exact ⟨p, by simp [hpar], by simp [hpn, hrun, Procstate.live], hpn⟩
    · obtain ⟨r, hr, hrl, hrq⟩ := h.tree.parent q (by simpa [e] using hq) (by simpa using hqi)
      exact ⟨r, by simp [e, hr], by simp [hlive r hrl, hrl], hrq⟩
  · intro q
    by_cases e : q = np
    · simp [e]
    intro hq hw
    by_cases e' : q = p
    · subst e'
      simp [e, hrun] at hq
    · simp_all
  · intro q
    by_cases e : q = np <;> simp [e]

/-- A zombie is nobody's parent, so its slot can go. -/
theorem Inv.reap_zombie (hpc : (k.pc p).makes = none)
    (hz : (k.pt z).state = .ZOMBIE) : Inv ({ k with pt := k.pt.reap z }.setPc p .run) := by
  have hlive : ∀ q, (k.pt q).state.live = true → q ≠ z := by
    rintro q hq rfl
    simp [hz, Procstate.live] at hq
  have hpt : ∀ q, q ≠ z → k.pt.reap z q = k.pt q := fun q hq => Ptable.modify_ne _ _ hq
  have hst : (k.pt.reap z z).state = .UNUSED ∧ (k.pt.reap z z).parent = none := by simp [Ptable.reap]
  suffices Inv { k with pt := k.pt.reap z } from
    this.setPc (hpc ▸ rfl) (adopted_of_makes hpc ▸ rfl) (by simp) (by simp)
  refine ⟨h.cpu.of_same rfl fun q => ?_, h.make.of_same (fun _ => rfl) (fun _ => rfl)
    (fun q x hx => ?_) fun _ q _ hq => ?_,
    ⟨?_, ?_, fun q => ?_, fun q hq hqi => ?_⟩, h.reap.of_same (fun q => ?_) (fun q => ?_)⟩ <;> dsimp only
  · by_cases e : q = z
    · subst e; simp [hst, hz]
    · simp [hpt q e]
  · have h1 := h.make.maker_live q x hx
    rw [hpt q (hlive q h1)]
    exact h1
  · have e : q ≠ z := by rintro rfl; simp [hz] at hq
    rw [hpt q e]
    exact ⟨hq, rfl⟩
  · rw [hpt _ (hlive _ h.tree.init_live)]
    exact h.tree.init_live
  · rw [hpt _ (hlive _ h.tree.init_live)]
    exact h.tree.init_root
  · by_cases e : q = z
    · subst e; exact fun _ => hst.2
    · rw [hpt q e]; exact h.tree.unused q
  · have e : q ≠ z := by rintro rfl; simp [hst, Procstate.live] at hq
    dsimp only at hq
    rw [hpt q e] at hq ⊢
    obtain ⟨r, hr, hrl, hrq⟩ := h.tree.parent q hq hqi
    exact ⟨r, hr, by rw [hpt r (hlive r hrl)]; exact hrl, hrq⟩
  · by_cases e : q = z
    · subst e; simp [hst]
    · rw [hpt q e]
      exact fun hq _ => ⟨hq, rfl, rfl, rfl⟩
  · by_cases e : q = z
    · subst e; simp [hst]
    · rw [hpt q e]
      exact fun hq => ⟨hq, rfl, rfl⟩

/-- A step on the entry of a live process that stays live and keeps its parent, and starts or stops
running together with its CPU. If it goes to sleep in `wait` or `join`, it has looked at its children. -/
theorem Inv.own (hlive : (k.pt p).state.live = true) (hcpu : CpuInv k') (hi : k'.initproc = k.initproc)
    (hpt : ∀ q, q ≠ p → k'.pt q = k.pt q) (hpc : ∀ q, q ≠ p → k'.pc q = k.pc q)
    (hlive' : (k'.pt p).state.live = true) (hpar : (k'.pt p).parent = (k.pt p).parent)
    (hmk : (k'.pc p).makes = (k.pc p).makes) (had : (k'.pc p).adopted = (k.pc p).adopted)
    (hch : (k'.pt p).state = .SLEEPING → k'.pc p = .wait ∨ k'.pc p = .join → (k'.pt p).chan = some (.proc p))
    (hw : (k'.pt p).state = .SLEEPING → k'.pc p = .wait →
      ∀ z, (k.pt z).parent = some p → (k.pt z).state ≠ .ZOMBIE)
    (hj : (k'.pt p).state = .SLEEPING → k'.pc p = .join →
      ∀ z, (k.pt z).parent = some p → (k.pt z).pgdir = (k'.pt p).pgdir → (k.pt z).state ≠ .ZOMBIE) : Inv k' := by
  have hdead : ∀ q, (k'.pt q).state.live = false → k'.pt q = k.pt q := by
    intro q hq
    apply hpt q
    rintro rfl
    simp [hq] at hlive'
  refine ⟨hcpu, h.make.of_same (fun q => ?_) (fun q => ?_) (fun q x hx => ?_) (fun _ q _ hq => ?_),
    h.tree.of_same hi (fun q => ?_) (fun q hq => ?_) (fun q _ => ?_) (fun q hq => ?_),
    ⟨fun q hq hq' => ?_, fun q hq hq' z hz hzom => ?_, fun q hq hq' z hz hd hzom => ?_⟩⟩ <;> by_cases e : q = p
  any_goals subst e
  · exact hmk
  · rw [hpc q e]
  · exact had
  · rw [hpc q e]
  · exact hlive'
  · rw [hpt q e]; exact h.make.maker_live q x hx
  · simp [hq, Procstate.live] at hlive
  · rw [hpt q e]; exact ⟨hq, rfl⟩
  · rw [hlive, hlive']
  · rw [hpt q e]
  · simp [hq, Procstate.live] at hlive'
  · rwa [hpt q e] at hq
  · exact hpar
  · rw [hpt q e]
  · simp [hq, Procstate.live] at hlive'
  · rw [hpt q e] at hq; exact h.tree.unused q hq
  · exact hch hq hq'
  · rw [hpt q e] at hq ⊢; exact h.reap.chan q hq (hpc q e ▸ hq')
  all_goals have hze := hdead z (by simp [hzom, Procstate.live])
  · exact hw hq hq' z (hze ▸ hz) (hze ▸ hzom)
  · rw [hpt q e] at hq; exact h.reap.waiting q hq (hpc q e ▸ hq') z (hze ▸ hz) (hze ▸ hzom)
  · exact hj hq hq' z (hze ▸ hz) (hze ▸ hd) (hze ▸ hzom)
  · rw [hpt q e] at hq hd; exact h.reap.joining q hq (hpc q e ▸ hq') z (hze ▸ hz) (hze ▸ hd) (hze ▸ hzom)

theorem Inv.sleep (hc : k.cpu c = some p) (hpc : (k.pc p).makes = none) (chan : Option Chan)
    (hmk : pc.makes = none) (hch : pc = .wait ∨ pc = .join → chan = some (.proc p))
    (hw : pc = .wait → ∀ z, (k.pt z).parent = some p → (k.pt z).state ≠ .ZOMBIE)
    (hj : pc = .join → ∀ z, (k.pt z).parent = some p → (k.pt z).pgdir = (k.pt p).pgdir →
      (k.pt z).state ≠ .ZOMBIE) : Inv (k.sleepOn c p chan pc) := by
  have hself : (k.sleepOn c p chan pc).pt p = { k.pt p with chan := chan, state := .SLEEPING } := by
    simp [Kernel.sleepOn]
  have hpcp : (k.sleepOn c p chan pc).pc p = pc := by simp [Kernel.sleepOn]
  refine h.own (live_of_running h.cpu hc)
    (h.cpu.leave hc (fun d => by simp [Kernel.sleepOn]) (by simp [hself]) fun q hq => by simp [Kernel.sleepOn, hq])
    rfl (fun q hq => by simp [Kernel.sleepOn, hq]) (fun q hq => by simp [Kernel.sleepOn, hq]) ?_ ?_ ?_ ?_ ?_ ?_ ?_
  · rw [hself]; rfl
  · rw [hself]
  · rw [hpcp, hmk, hpc]
  · rw [hpcp, adopted_of_makes hmk, adopted_of_makes hpc]
  · rw [hpcp, hself]; exact fun _ => hch
  · rw [hpcp]; exact fun _ => hw
  · rw [hpcp, hself]; exact fun _ => hj

theorem Inv.yield (hc : k.cpu c = some p) : Inv ((k.modify p fun q => { q with state := .RUNNABLE }).idle c) := by
  refine h.own (live_of_running h.cpu hc) (h.cpu.leave hc (fun d => by simp) (by simp) ?_) rfl
    (fun q hq => by simp [hq]) (fun _ _ => rfl) (by simp [Procstate.live]) (by simp) rfl rfl (by simp)
    (by simp) (by simp)
  intro q hq
  simp [hq]

theorem Inv.exec (hc : k.cpu c = some p) (d : Pgdir) (sz : BitVec 32) :
    Inv (k.modify p fun q => { q with pgdir := d, sz := sz }) := by
  have hrun := h.cpu.running c p hc
  refine h.own (live_of_running h.cpu hc) (h.cpu.of_same rfl ?_) rfl (fun q hq => by simp [hq])
    (fun _ _ => rfl) (by simp [hrun, Procstate.live]) (by simp) rfl rfl (by simp [hrun]) (by simp [hrun])
    (by simp [hrun])
  intro q
  by_cases e : q = p
  · subst e; simp
  · simp [e]

end

/-- Coming back from `swtch` touches only `chan`, and ends a plain `sleep`. -/
theorem resume_spec (k : Kernel ncpu) (p : Slot) : (k.resume p).cpu = k.cpu ∧ (k.resume p).initproc = k.initproc ∧
    (∀ q, q ≠ p → (k.resume p).pt q = k.pt q ∧ (k.resume p).pc q = k.pc q) ∧
    (k.resume p).pt p = { k.pt p with chan := ((k.resume p).pt p).chan } ∧
    ((k.resume p).pc p).makes = (k.pc p).makes ∧ ((k.resume p).pc p).adopted = (k.pc p).adopted := by
  unfold Kernel.resume
  split <;> simp_all [Pc.makes, Pc.adopted]

theorem Inv.dispatch (h : Inv k) (hc : k.cpu c = none) (hr : (k.pt p).state = .RUNNABLE) :
    Inv ({ k with
      pt := k.pt.modify p fun q => { q with state := .RUNNING }
      cpu := Function.update k.cpu c (some p) }.resume p) := by
  obtain ⟨r1, r2, r3, r4, r5, r6⟩ := resume_spec { k with
    pt := k.pt.modify p fun q => { q with state := .RUNNING }
    cpu := Function.update k.cpu c (some p) } p
  generalize Kernel.resume _ p = k' at *
  dsimp only at r1 r2 r3 r4
  have hne : ∀ q, q ≠ p → k'.pt q = k.pt q := fun q hq => (r3 q hq).1.trans (Ptable.modify_ne _ _ hq)
  have hself : (k'.pt p).state = .RUNNING ∧ (k'.pt p).parent = (k.pt p).parent := by
    rw [r4]; simp
  have hnr : (k.pt p).state ≠ .RUNNING := by simp [hr]
  refine h.own (by rw [hr]; rfl) (h.cpu.enter hc hnr ?_ ?_) r2 hne (fun q hq => (r3 q hq).2)
    (by rw [hself.1]; rfl) hself.2 r5 r6 (by simp [hself]) (by simp [hself]) (by simp [hself])
  · intro d
    rw [r1, Function.update_apply]
  intro q
  by_cases e : q = p
  · subst e; simp [hself]
  · simp [hne q e, e]

/-- `exit` wakes whoever has to reap the new zombie or the zombies it passes on: a process that is
still asleep in `wait` or `join` afterwards has only the zombies it had before. -/
theorem zombie_of_exit (h : Inv k) (hrun : (k.pt p).state = .RUNNING) (hi : p ≠ k.initproc)
    (hq : (k.pt.exitTable p k.initproc q).state = .SLEEPING) (hpc : k.pc q = .wait ∨ k.pc q = .join)
    (hpar : (k.pt.exitTable p k.initproc z).parent = some q)
    (hz : (k.pt.exitTable p k.initproc z).state = .ZOMBIE) :
    (k.pt q).state = .SLEEPING ∧ (k.pt z).parent = some q ∧ (k.pt z).state = .ZOMBIE := by
  have hqp : q ≠ p := by rintro rfl; simp at hq
  rw [Ptable.exitTable_state _ _ _ hqp] at hq
  split at hq
  · cases hq
  rename_i hwake
  have hch := h.reap.chan q hq hpc
  simp only [hq, hch, true_and, not_or, not_and, not_exists, Option.some.injEq, Chan.proc.injEq] at hwake
  rw [Ptable.exitTable_parent] at hpar
  obtain ⟨r, hr, -, hrp⟩ := h.tree.parent p (.inl (by rw [hrun]; rfl)) hi
  by_cases ezp : z = p
  · -- the exiting process itself: its parent has just been woken
    subst ezp
    rw [hr, if_neg (by simpa using hrp)] at hpar
    exact absurd (by rw [hr, Option.some.inj hpar]; rfl) hwake.1
  rw [Ptable.exitTable_state _ _ _ ezp] at hz
  split at hz
  · cases hz
  split at hpar
  · -- a zombie child passed on: init has just been woken
    exact absurd hz (hwake.2 (Option.some.inj hpar).symm z ‹_›)
  · exact ⟨hq, hpar, hz⟩

theorem Inv.exit (h : Inv k) (hc : k.cpu c = some p) (hpc : k.pc p = .run) (hi : p ≠ k.initproc) :
    Inv ({ k with pt := k.pt.exitTable p k.initproc }.idle c) := by
  have hrun := h.cpu.running c p hc
  have hst : ∀ q s, q ≠ p → s ≠ .SLEEPING → s ≠ .RUNNABLE →
      ((k.pt.exitTable p k.initproc q).state = s ↔ (k.pt q).state = s) := by
    intro q s hq h1 h2
    rw [Ptable.exitTable_state _ _ _ hq]
    split
    next hw =>
      rw [hw.1]
      exact ⟨fun e => absurd e.symm h2, fun e => absurd e.symm h1⟩
    · exact .rfl
  have hlive : ∀ q, q ≠ p → (k.pt.exitTable p k.initproc q).state.live = (k.pt q).state.live := by
    intro q hq
    rw [Ptable.exitTable_state _ _ _ hq]
    split
    next hw =>
      rw [hw.1]; rfl
    · rfl
  have hinit := hlive _ hi.symm
  have hmaker : ∀ q x, (k.pc q).makes = some x → q ≠ p := by
    rintro q x hx rfl
    rw [hpc] at hx
    cases hx
  refine ⟨h.cpu.leave hc (fun d => by simp) (by simp) fun q hq => hst q _ hq (by simp) (by simp),
    h.make.of_same (fun _ => rfl) (fun _ => rfl) (fun q x hx => ?_) (fun q x hx hx' => ?_),
    ⟨hinit.trans h.tree.init_live, ?_, fun q hq => ?_, fun q hq hqi => ?_⟩,
    ⟨fun q hq hq' => ?_, fun q hq hq' z hz hzom => ?_, fun q hq hq' z hz hd hzom => ?_⟩⟩ <;>
    simp only [Kernel.idle_pt, Kernel.idle_pc, Kernel.idle_initproc] at *
  · rw [hlive q (hmaker q x hx)]
    exact h.make.maker_live q x hx
  · have hxp : x ≠ p := by rintro rfl; simp [hrun] at hx'
    refine ⟨(hst x _ hxp (by simp) (by simp)).2 hx', ?_⟩
    rw [Ptable.exitTable_parent, if_neg]
    rw [h.make.parent q x hx]
    split
    · simpa using hmaker q x hx
    · simp
  · rw [Ptable.exitTable_parent, h.tree.init_root]
    simp
  · have hqp : q ≠ p := by rintro rfl; simp at hq
    rw [Ptable.exitTable_parent, h.tree.unused q ((hst q _ hqp (by simp) (by simp)).1 hq)]
    simp
  · have hq' : (k.pt q).state.live = true ∨ (k.pt q).state = .ZOMBIE := by
      by_cases e : q = p
      · subst e; exact .inl (by rw [hrun]; rfl)
      · rwa [hlive q e, hst q _ e (by simp) (by simp)] at hq
    obtain ⟨r, hr, hrl, hrq⟩ := h.tree.parent q hq' hqi
    rw [Ptable.exitTable_parent, hr]
    by_cases e : r = p
    · exact ⟨k.initproc, by simp [e], hinit.trans h.tree.init_live, hqi.symm⟩
    · exact ⟨r, by simp [e], (hlive r e).trans hrl, hrq⟩
  · have hqp : q ≠ p := by rintro rfl; simp at hq
    rw [Ptable.exitTable_frame]
    refine h.reap.chan q ?_ hq'
    rw [Ptable.exitTable_state _ _ _ hqp] at hq
    split at hq
    · cases hq
    · exact hq
  · obtain ⟨h1, h2, h3⟩ := zombie_of_exit h hrun hi hq (.inl hq') hz hzom
    exact h.reap.waiting q h1 hq' z h2 h3
  · obtain ⟨h1, h2, h3⟩ := zombie_of_exit h hrun hi hq (.inr hq') hz hzom
    rw [Ptable.exitTable_frame, Ptable.exitTable_frame k.pt p k.initproc q] at hd
    exact h.reap.joining q h1 hq' z h2 hd h3

theorem inv_move {a : Act ncpu} (h : Inv k) (hm : Move k a k') : Inv k' := by
  cases hm with
  | full hc => exact h
  | alloc hc hpc hf m ho => exact h.alloc hc (Ptable.freeSlot_some hf) m _ _
  | kstack hc hpc => exact h.setPc (by rw [hpc]; rfl) (by rw [hpc]; rfl) (by simp) (by simp)
  | discard hc hmk had d => exact h.discard hc hmk had d
  | fill hc hpc d us tk htk => exact h.fill hc hpc (fun _ => rfl) fun _ => rfl
  | publish hc hpc tk hpc' htk => exact h.publish hc hpc hpc' tk
  | refs hc hpc =>
    exact (h.woken (.modify (.inl rfl) rfl rfl rfl)).setPc (by rw [hpc]; rfl) (by rw [hpc]; rfl) (by simp)
      (by simp)
  | exit hc hpc hi => exact h.exit hc hpc hi
  | reap hc hpc hpar hz => exact h.reap_zombie hpc hz
  | giveUp hc hpc => exact h.setPc (hpc ▸ rfl) (adopted_of_makes hpc ▸ rfl) (by simp) (by simp)
  | sleep hc hpc chan hmk hch hw hj ho => exact h.sleep hc hpc chan hmk hch hw hj
  | yield hc hs => exact h.yield hc
  | exec hc hpc d sz ho => exact h.exec hc d sz
  | dispatch hc hr hw => exact h.dispatch hc hr
  | wakeup chan => exact h.woken (woken_wakeup1 _ _)
  | wakeupEntry m q =>
    unfold Kernel.wakeupEntry
    split
    next hq =>
      exact h.woken (.modify (.inr ⟨hq.1, rfl⟩) rfl rfl rfl)
    · exact h
  | kill pid => exact h.woken (woken_kill _ _)
  | changeTickets pid tk => exact h.woken (woken_changeTickets _ _ _)

theorem inv_boot (d : Pgdir) : Inv (.boot d : Kernel ncpu) := by
  have h0 : (Kernel.boot d : Kernel ncpu).pt 0 =
      { Proc.zero with pgdir := d, sz := PGSIZE, state := .RUNNABLE, pid := 1, tickets := 1 } := by
    simp [Kernel.boot]
  have hne : ∀ q, q ≠ 0 → (Kernel.boot d : Kernel ncpu).pt q = .zero := fun q hq => by simp [Kernel.boot, hq]
  have hrun : ∀ q, ((Kernel.boot d : Kernel ncpu).pt q).state = .RUNNABLE ∧ q = 0 ∨
      ((Kernel.boot d : Kernel ncpu).pt q).state = .UNUSED ∧ q ≠ 0 := by
    intro q
    by_cases e : q = 0
    · subst e; exact .inl ⟨by rw [h0], rfl⟩
    · exact .inr ⟨by rw [hne q e]; rfl, e⟩
  have hpar : ∀ q, ((Kernel.boot d : Kernel ncpu).pt q).parent = none := by
    intro q
    by_cases e : q = 0
    · subst e; rw [h0]; rfl
    · rw [hne q e]; rfl
  refine ⟨⟨?_, ?_, fun q hq => ?_⟩, ⟨?_, ?_, ?_, ?_⟩, ⟨?_, hpar _, fun q _ => hpar q, fun q hq hqi => ?_⟩,
    ⟨?_, ?_, ?_⟩⟩
  case refine_3 => rcases hrun q with ⟨e, -⟩ | ⟨e, -⟩ <;> simp [e] at hq
  case refine_8 => rw [show (Kernel.boot d : Kernel ncpu).initproc = 0 from rfl, h0]; rfl
  case refine_9 =>
    rcases hrun q with ⟨-, e⟩ | ⟨e, -⟩
    · exact absurd e hqi
    · simp [e, Procstate.live] at hq
  all_goals simp [Kernel.boot, Pc.makes]

theorem inv_reach (h : (kernel ncpu).Reach k) : Inv k := by
  refine h.inv (I := Inv) ?_ fun _ _ _ hi hs => inv_move hi (move_of_step hs)
  rintro _ ⟨d, rfl⟩
  exact inv_boot d

/-- **The process tree and reaping.** In every state of every run: whoever is alive or a zombie,
other than init, has a parent that is neither free nor a zombie; free slots have no parent; nobody
sleeps in `wait` over a zombie child, nor in `join` over a zombie child with its own page directory. -/
theorem process_tree (h : (kernel ncpu).Reach k) :
    (∀ q, (k.pt q).state = .SLEEPING ∨ (k.pt q).state = .RUNNABLE ∨ (k.pt q).state = .RUNNING ∨
        (k.pt q).state = .ZOMBIE → q ≠ k.initproc →
      ∃ r, (k.pt q).parent = some r ∧ (k.pt r).state ≠ .UNUSED ∧ (k.pt r).state ≠ .ZOMBIE) ∧
    (∀ q, (k.pt q).state = .UNUSED → (k.pt q).parent = none) ∧
    (∀ p, (k.pt p).state = .SLEEPING → k.pc p = .wait →
      ¬ ∃ z, (k.pt z).parent = some p ∧ (k.pt z).state = .ZOMBIE) ∧
    (∀ p, (k.pt p).state = .SLEEPING → k.pc p = .join →
      ¬ ∃ z, (k.pt z).parent = some p ∧ (k.pt z).pgdir = (k.pt p).pgdir ∧ (k.pt z).state = .ZOMBIE) := by
  have hi := inv_reach h
  refine ⟨?_, hi.tree.unused, ?_, ?_⟩
  · intro q hq hqi
    have hq' : (k.pt q).state.live = true ∨ (k.pt q).state = .ZOMBIE := by
      rcases hq with e | e | e | e <;> simp [e, Procstate.live]
    obtain ⟨r, hr, hrl, -⟩ := hi.tree.parent q hq' hqi
    refine ⟨r, hr, ?_, ?_⟩ <;>
    · intro e
      simp [e, Procstate.live] at hrl
  · intro p hp hpc
    rintro ⟨z, hz, hzom⟩
    exact hi.reap.waiting p hp hpc z hz hzom
  · intro p hp hpc
    rintro ⟨z, hz, hd, hzom⟩
    exact hi.reap.joining p hp hpc z hz hd hzom

/-- On CPU `c`, init forks and waits, and the child runs. -/
def forkAndWait (c : Fin 1) : List (Act 1) :=
  [.dispatch c 0 0, .on c .fork, .on c (.kalloc true), .on c (.copyuvm 7), .on c .publish, .on c .wait,
    .dispatch c 1 0]

/-- A parent asleep in `wait` whose child is not a zombie. -/
theorem process_tree_wait : ∃ k : Kernel 1, (k.pt 0).state = .SLEEPING ∧ k.pc 0 = .wait ∧
    (k.pt 1).parent = some 0 ∧ ¬ ∃ z, (k.pt z).parent = some 0 ∧ (k.pt z).state = .ZOMBIE := by
  obtain ⟨k, hk, hp⟩ := Machine.exists_reachBy (M := kernel 1) (G := fun _ _ => True) ⟨7, rfl⟩ (forkAndWait 0)
    (fun k => (k.pt 0).state = .SLEEPING ∧ k.pc 0 = .wait ∧ (k.pt 1).parent = some 0) (by decide)
  obtain ⟨h1, h2, h3⟩ := of_decide_eq_true hp
  exact ⟨k, h1, h2, h3, (process_tree hk).2.2.1 0 h1 h2⟩

/-- **One CPU per process.** In every state of every run, on any number of CPUs, a process is
`RUNNING` exactly when one CPU, and only one, has it as `c->proc`. -/
theorem one_cpu_per_process (h : (kernel ncpu).Reach k) :
    (∀ p, (k.pt p).state = .RUNNING ↔ ∃! c, k.cpu c = some p) ∧
    ∀ c p, k.cpu c = some p → (k.pt p).state = .RUNNING := by
  have hi := (inv_reach h).cpu
  refine ⟨fun p => ⟨?_, ?_⟩, hi.running⟩
  · intro hp
    obtain ⟨c, hc⟩ := hi.somewhere p hp
    exact ⟨c, hc, fun d hd => hi.once d c p hd hc⟩
  · rintro ⟨c, hc, -⟩
    exact hi.running c p hc

/-- Parent and child on two CPUs. -/
theorem one_cpu_per_process_fork : ∃ k : Kernel 2, (k.pt 0).state = .RUNNING ∧ (k.pt 1).state = .RUNNING ∧
    (∃! c, k.cpu c = some 0) ∧ ∃! c, k.cpu c = some 1 := by
  obtain ⟨k, hk, hp⟩ := Machine.exists_reachBy (M := kernel 2) (G := fun _ _ => True) ⟨7, rfl⟩
    [.dispatch 0 0 0, .on 0 .fork, .on 0 (.kalloc true), .on 0 (.copyuvm 7), .on 0 .publish, .dispatch 1 1 0]
    (fun k => (k.pt 0).state = .RUNNING ∧ (k.pt 1).state = .RUNNING) (by decide)
  obtain ⟨h1, h2⟩ := of_decide_eq_true hp
  have h := one_cpu_per_process hk
  exact ⟨k, h1, h2, (h.1 0).1 h1, (h.1 1).1 h2⟩

end Xv6
