import Xv6Threading.Proc.Invariant
import Xv6Threading.Proc.Lottery

/-!
# Tickets (`proc.c:329-358`)

`userinit` and `fork` give one ticket, `clone` gives as many as the parent has, and `change_tickets` writes whatever it is
called with. `get_tickets` adds up the `RUNNABLE` entries in an `int`. As long as nobody is given less than 1 or more than
33554431 tickets, 64 entries cannot overflow it.

| here | there |
| --- | --- |
| `Dealt` | a count that `change_tickets` may write |
| `DealsRight` | the calls of `change_tickets` that reach a process write such a count |
-/

namespace Xv6

variable {ncpu : Nat} {k k' : Kernel ncpu} {c : Fin ncpu} {p q : Slot} {pc : Pc}

/-- `get_tickets` returns what the `RUNNABLE` processes hold, and each of them holds a ticket. -/
structure TicketsExact (pt : Ptable) : Prop where
  pos : ∀ p, (pt p).state = .RUNNABLE → 1 ≤ (pt p).tickets.toInt
  sum : pt.getTickets.toInt = (pt.runnable.map fun p => (pt p).tickets.toInt).sum

def Dealt (tickets : BitVec 32) : Prop := 1 ≤ tickets.toInt ∧ tickets.toInt ≤ 33554431

def DealsRight (k : Kernel ncpu) : Act ncpu → Prop
  | .changeTickets pid tickets => ∀ q, k.pt.findPid pid = some q → (k.pt q).state ≠ .UNUSED → Dealt tickets
  | _ => True

instance (tickets : BitVec 32) : Decidable (Dealt tickets) := inferInstanceAs (Decidable (_ ∧ _))

instance (k : Kernel ncpu) : ∀ a : Act ncpu, Decidable (DealsRight k a)
  | .changeTickets pid tickets => inferInstanceAs (Decidable (∀ q, k.pt.findPid pid = some q →
      (k.pt q).state ≠ .UNUSED → Dealt tickets))
  | .on _ _ | .dispatch _ _ _ | .wakeup _ | .wakeupEntry _ _ | .kill _ => instDecidableTrue

/-- Everybody alive has tickets, and so has the child that `fork` has not made `RUNNABLE` yet. `clone` writes them in the
same critical section in which it does that. -/
structure TicketInv (k : Kernel ncpu) : Prop where
  live : ∀ q, (k.pt q).state.live = true → Dealt (k.pt q).tickets
  made : ∀ p np, k.pc p = .publish .fork np → Dealt (k.pt np).tickets

/-- 64 entries do not overflow the sum. -/
theorem TicketInv.exact (h : TicketInv k) : TicketsExact k.pt := by
  have hdealt : ∀ p, (k.pt p).state = .RUNNABLE → Dealt (k.pt p).tickets := fun p hp => h.live p (by rw [hp]; rfl)
  have hheld : ∀ p ∈ k.pt.runnable, ((k.pt.held p : Nat) : Int) = (k.pt p).tickets.toInt := by
    intro p hp
    have := (hdealt p (Ptable.mem_runnable.1 hp)).1
    rw [Ptable.held]
    omega
  have hbound : k.pt.total ≤ k.pt.runnable.length * 33554431 := by
    refine (List.sum_le_card_nsmul _ 33554431 ?_).trans (by simp)
    intro n hn
    obtain ⟨p, hp, rfl⟩ := List.mem_map.1 hn
    have := (hdealt p (Ptable.mem_runnable.1 hp)).2
    have := hheld p hp
    omega
  have hlen : k.pt.runnable.length ≤ 64 := by
    have := List.length_filter_le (fun p => decide ((k.pt p).state = .RUNNABLE)) (List.finRange NPROC)
    rwa [List.length_finRange] at this
  refine ⟨fun p hp => (hdealt p hp).1, ?_⟩
  rw [Ptable.getTickets_eq (fun p hp => (hdealt p hp).1) (by omega), Ptable.total, Nat.cast_list_sum, List.map_map]
  exact congrArg List.sum (List.map_congr_left hheld)

/-! ## Steps -/

/-- One entry changes: its tickets are as before, or dealt now, or nobody's that counts. -/
theorem TicketInv.of_entry (h : TicketInv k) (e : Slot) (hpt : ∀ r, r ≠ e → k'.pt r = k.pt r)
    (hpc : ∀ r np, k'.pc r = .publish .fork np → k.pc r = .publish .fork np ∨ Dealt (k'.pt np).tickets)
    (hlive : (k'.pt e).state.live = true → (k.pt e).state.live = true ∧ (k'.pt e).tickets = (k.pt e).tickets ∨
      Dealt (k'.pt e).tickets)
    (htk : (k'.pt e).tickets = (k.pt e).tickets ∨ Dealt (k'.pt e).tickets ∨ ∀ r, (k.pc r).makes ≠ some e) :
    TicketInv k' := by
  refine ⟨fun q hq => ?_, fun p np hp => ?_⟩
  · by_cases hqe : q = e
    · subst hqe
      rcases hlive hq with ⟨hold, heq⟩ | hnew
      · exact heq ▸ h.live q hold
      · exact hnew
    · rw [hpt q hqe] at hq ⊢
      exact h.live q hq
  rcases hpc p np hp with hold | hnew
  · by_cases hne : np = e
    · subst hne
      rcases htk with heq | hnew | hno
      · exact heq ▸ h.made p np hold
      · exact hnew
      · exact absurd (by rw [hold]; rfl) (hno p)
    · rw [hpt np hne]
      exact h.made p np hold
  · exact hnew

/-- One entry changes, not in its tickets. -/
theorem TicketInv.of_kept (h : TicketInv k) (e : Slot) (hpt : ∀ r, r ≠ e → k'.pt r = k.pt r)
    (hpc : ∀ r np, k'.pc r = .publish .fork np → k.pc r = .publish .fork np)
    (hlive : (k'.pt e).state.live = true → (k.pt e).state.live = true) (htk : (k'.pt e).tickets = (k.pt e).tickets) :
    TicketInv k' :=
  h.of_entry e hpt (fun r np hr => .inl (hpc r np hr)) (fun hl => .inl ⟨hlive hl, htk⟩) (.inl htk)

/-- Nobody's tickets change, and nobody comes to life. -/
theorem TicketInv.of_table (h : TicketInv k) {pt : Ptable} (htk : ∀ q, (pt q).tickets = (k.pt q).tickets)
    (hlive : ∀ q, (pt q).state.live = true → (k.pt q).state.live = true) : TicketInv { k with pt := pt } := by
  refine ⟨fun q hq => ?_, fun p np hp => ?_⟩
  · rw [htk q]
    exact h.live q (hlive q hq)
  · rw [htk np]
    exact h.made p np hp

theorem Woken.live {pt pt' : Ptable} (hw : Woken pt pt') (q : Slot) (h : (pt' q).state.live = true) :
    (pt q).state.live = true := by
  rcases hw.state q with e | ⟨e, -⟩
  · rwa [← e]
  · rw [e]
    rfl

theorem publish_ne (h : pc.makes = none) (np : Slot) : pc ≠ .publish .fork np := by
  rintro rfl
  cases h

section

variable (h : TicketInv k) {tk : BitVec 32} {np : Slot} {m : Maker}
include h

theorem TicketInv.idle (c : Fin ncpu) : TicketInv (k.idle c) := ⟨h.live, h.made⟩

theorem TicketInv.setPc (p : Slot) (hpc : ∀ np, pc ≠ .publish .fork np) : TicketInv (k.setPc p pc) := by
  refine ⟨h.live, fun r np hr => ?_⟩
  rw [Kernel.setPc_pc] at hr
  split at hr
  · exact absurd hr (hpc np)
  · exact h.made r np hr

theorem TicketInv.modify (e : Slot) {f : Proc → Proc}
    (hlive : (f (k.pt e)).state.live = true → (k.pt e).state.live = true)
    (htk : (f (k.pt e)).tickets = (k.pt e).tickets) : TicketInv (k.modify e f) :=
  h.of_kept e (by simp +contextual) (fun _ _ hr => hr) (by simpa using hlive) (by simpa using htk)

theorem TicketInv.exit (hi : Inv k) (hc : k.cpu c = some p) :
    TicketInv ({ k with pt := k.pt.exitTable p k.initproc }.idle c) := by
  refine TicketInv.idle (h.of_table (fun q => by rw [Ptable.exitTable_frame]) fun q hq => ?_) c
  by_cases e : q = p
  · subst e
    exact live_of_running hi.cpu hc
  rw [Ptable.exitTable_state _ _ _ e] at hq
  split at hq
  next hw =>
    rw [hw.1]
    rfl
  · exact hq

/-- `fork` gives its child one ticket, `clone` none yet. -/
theorem TicketInv.fill (hemb : (k.pt np).state = .EMBRYO) (d : Pgdir) (us : BitVec 32)
    (htk : m = .fork ∧ tk = 1 ∨ m ≠ .fork ∧ tk = (k.pt np).tickets) :
    TicketInv ((k.modify np fun q =>
      { q with pgdir := d, sz := (k.pt p).sz, parent := some p, ustack := us, tickets := tk }).setPc p
        (.publish m np)) := by
  rcases htk with ⟨rfl, rfl⟩ | ⟨hm, rfl⟩
  · have hone : Dealt 1 := by decide
    refine h.of_entry np (by simp +contextual) ?_ (by simp [hemb, Procstate.live]) (.inr (.inl (by simpa using hone)))
    intro r x hr
    rw [Kernel.setPc_pc] at hr
    split at hr
    · cases hr
      exact .inr (by simpa using hone)
    · exact .inl hr
  · exact (h.modify np id rfl).setPc p (by simp [hm])

/-- The child of `clone` gets the tickets of its parent, which runs. -/
theorem TicketInv.publish (hi : Inv k) (hc : k.cpu c = some p)
    (hpc : k.pc p = .publish m np) (hpc' : pc.makes = none)
    (htk : m = .fork ∧ tk = (k.pt np).tickets ∨ ∃ r, (k.pt np).parent = some r ∧ tk = (k.pt r).tickets) :
    TicketInv (((k.modify np fun q => { q with tickets := tk, state := .RUNNABLE }).setPc np .run).setPc p pc) := by
  have hdealt : Dealt tk := by
    rcases htk with ⟨rfl, rfl⟩ | ⟨r, hr, rfl⟩
    · exact h.made p np hpc
    have hpar := hi.make.parent p np (by rw [hpc]; rfl)
    rw [hr, hpc] at hpar
    cases hpar
    exact h.live p (live_of_running hi.cpu hc)
  have hnew : TicketInv (k.modify np fun q => { q with tickets := tk, state := .RUNNABLE }) :=
    h.of_entry np (by simp +contextual) (fun _ _ hr => .inl hr) (fun _ => .inr (by simpa using hdealt))
      (.inr (.inl (by simpa using hdealt)))
  exact (hnew.setPc np (by simp)).setPc p (publish_ne hpc')

theorem TicketInv.changeTickets (hi : Inv k) {pid tickets : BitVec 32}
    (hd : ∀ q, k.pt.findPid pid = some q → (k.pt q).state ≠ .UNUSED → Dealt tickets) :
    TicketInv { k with pt := k.pt.changeTickets pid tickets } := by
  unfold Ptable.changeTickets
  split
  next q hq =>
    by_cases hu : (k.pt q).state = .UNUSED
    · refine h.of_entry q (by simp +contextual [Ptable.modify_ne]) (fun _ _ hr => .inl hr) (by simp [hu, Procstate.live]) ?_
      refine .inr (.inr fun r hr => ?_)
      have := hi.make.embryo r q hr
      rw [hu] at this
      cases this
    · have hdealt := hd q hq hu
      exact h.of_entry q (by simp +contextual [Ptable.modify_ne]) (fun _ _ hr => .inl hr)
        (fun _ => .inr (by simpa using hdealt)) (.inr (.inl (by simpa using hdealt)))
  · exact h

theorem TicketInv.move (hi : Inv k) {a : Act ncpu} (hd : DealsRight k a) (hm : Move k a k') : TicketInv k' := by
  cases hm with
  | full hc => exact h
  | @alloc c p o np hc hpc hf m ho =>
    have hnew : TicketInv { k with
        pt := k.pt.modify np fun q => { q with state := .EMBRYO, pid := k.nextpid }
        nextpid := k.nextpid + 1 } :=
      h.of_kept np (by simp +contextual [Ptable.modify_ne]) (fun _ _ hr => hr) (by simp [Procstate.live]) (by simp)
    exact hnew.setPc p (by simp)
  | kstack hc hpc | giveUp hc hpc => exact h.setPc _ (by simp)
  | discard hc hmk had d => exact (h.modify _ (by simp [Procstate.live]) rfl).setPc _ (by simp)
  | fill hc hpc d us tk htk => exact h.fill (hi.make.embryo _ _ (by rw [hpc]; rfl)) d us htk
  | publish hc hpc tk hpc' htk => exact h.publish hi hc hpc hpc' htk
  | refs hc hpc => exact (h.modify _ id rfl).setPc _ (by simp)
  | exit hc hpc hne => exact h.exit hi hc
  | reap hc hpc hpar hz =>
    exact (h.modify _ (f := fun q => { q with pid := 0, parent := none, killed := false, state := .UNUSED })
      (by simp [Procstate.live]) rfl).setPc _ (by simp)
  | sleep hc hpc chan hmk hch hw hj ho =>
    exact ((h.modify _ (fun _ => live_of_running hi.cpu hc) rfl).setPc _ (publish_ne hmk)).idle _
  | yield hc hs => exact (h.modify _ (fun _ => live_of_running hi.cpu hc) rfl).idle _
  | exec hc hpc d sz ho => exact h.modify _ id rfl
  | @dispatch c p draw hc hr hw =>
    have hrun : TicketInv { k with
        pt := k.pt.modify p fun q => { q with state := .RUNNING }
        cpu := Function.update k.cpu c (some p) } :=
      h.of_kept p (by simp +contextual [Ptable.modify_ne]) (fun _ _ hr => hr) (by simp [hr, Procstate.live]) (by simp)
    unfold Kernel.resume
    split
    · exact hrun.modify p id rfl
    · exact hrun.modify p id rfl
    · exact (hrun.modify p id rfl).setPc p (by simp)
    all_goals exact hrun
  | wakeup chan => exact h.of_table (fun q => by rw [Ptable.wakeup1_eq]) (woken_wakeup1 _ _).live
  | wakeupEntry m q =>
    unfold Kernel.wakeupEntry
    split
    next hq =>
      exact h.modify q (by simp [hq.1, Procstate.live]) rfl
    · exact h
  | kill pid => exact h.of_table (fun q => Ptable.kill_keeps Proc.tickets k.pt pid q fun _ => rfl) (woken_kill _ _).live
  | changeTickets pid tickets => exact h.changeTickets hi hd

end

theorem ticketInv_boot (d : Pgdir) : TicketInv (.boot d : Kernel ncpu) := by
  refine ⟨fun q hq => ?_, fun p np hp => by cases hp⟩
  by_cases e : q = 0
  · subst e
    simp only [Kernel.boot, Function.update_self]
    decide
  · simp [Kernel.boot, e, Proc.zero, Procstate.live] at hq

/-- **Ticket accounting.** In every run in which `change_tickets` gives no process less than 1 or more than 33554431
tickets, every `RUNNABLE` process holds a ticket in every state, and `get_tickets` returns the sum of what the `RUNNABLE`
processes hold. A `RUNNABLE` process that is given less than 1 breaks this at once. -/
theorem tickets_exact :
    (∀ k : Kernel ncpu, (kernel ncpu).ReachBy DealsRight k → TicketsExact k.pt) ∧
    ∀ (k k' : Kernel ncpu) (pid tickets : BitVec 32) (q : Slot), k.pt.findPid pid = some q →
      (k.pt q).state = .RUNNABLE → tickets.toInt < 1 → k.step (.changeTickets pid tickets) = some k' →
      ¬ TicketsExact k'.pt := by
  refine ⟨fun k hk => ?_, fun k k' pid tickets q hq hr hlt hs hex => ?_⟩
  · refine (hk.inv (I := fun k => Inv k ∧ TicketInv k) ?_ ?_).2.exact
    · rintro _ ⟨d, rfl⟩
      exact ⟨inv_boot d, ticketInv_boot d⟩
    · rintro k a k' ⟨hi, ht⟩ hd hs
      exact ⟨inv_move hi (move_of_step hs), ht.move hi hd (move_of_step hs)⟩
  · cases hs
    have hpos := hex.pos q
    simp only [Ptable.changeTickets_eq hq, Ptable.modify_self] at hpos
    have := hpos hr
    omega

/-- Init with 5 tickets and a thread that has inherited them. -/
theorem tickets_exact_clone : ∃ k : Kernel 1, (k.pt 0).state = .RUNNABLE ∧ (k.pt 1).state = .RUNNABLE ∧
    k.pt.getTickets = 10 ∧ TicketsExact k.pt := by
  obtain ⟨k, hk, hp⟩ := Machine.exists_reachBy (M := kernel 1) (G := DealsRight) ⟨7, rfl⟩
    [.changeTickets 1 5, .dispatch 0 0 0, .on 0 (.clone 0), .on 0 (.kalloc true), .on 0 .share, .on 0 .publish,
      .on 0 .setRefs, .on 0 .yield]
    (fun k => (k.pt 0).state = .RUNNABLE ∧ (k.pt 1).state = .RUNNABLE ∧ k.pt.getTickets = 10) (by decide +kernel)
  obtain ⟨h0, h1, hsum⟩ := of_decide_eq_true hp
  exact ⟨k, h0, h1, hsum, tickets_exact.1 k hk⟩

/-- `change_tickets` takes the only ticket from init; or it gives init so many that two processes are too many to add. -/
theorem tickets_wrong :
    (∃ k : Kernel 1, (kernel 1).Reach k ∧ (k.pt 0).state = .RUNNABLE ∧ (k.pt 0).tickets = 0) ∧
    ∃ k : Kernel 1, (kernel 1).Reach k ∧ k.pt.getTickets.toInt = -2 ∧
      (k.pt.runnable.map fun p => (k.pt p).tickets.toInt).sum = 4294967294 := by
  refine ⟨?_, ?_⟩
  · obtain ⟨k, hk, hp⟩ := Machine.exists_reachBy (M := kernel 1) (G := fun _ _ => True) ⟨7, rfl⟩
      [.changeTickets 1 0] (fun k => (k.pt 0).state = .RUNNABLE ∧ (k.pt 0).tickets = 0) (by decide)
    obtain ⟨hr, ht⟩ := of_decide_eq_true hp
    exact ⟨k, hk, hr, ht⟩
  obtain ⟨k, hk, hp⟩ := Machine.exists_reachBy (M := kernel 1) (G := fun _ _ => True) ⟨7, rfl⟩
    [.changeTickets 1 2147483647, .dispatch 0 0 0, .on 0 (.clone 0), .on 0 (.kalloc true), .on 0 .share, .on 0 .publish,
      .on 0 .setRefs, .on 0 .yield]
    (fun k => k.pt.getTickets.toInt = -2 ∧ (k.pt.runnable.map fun p => (k.pt p).tickets.toInt).sum = 4294967294)
    (by decide)
  obtain ⟨hget, hsum⟩ := of_decide_eq_true hp
  exact ⟨k, hk, hget, hsum⟩

end Xv6
