import Xv6Threading.Sysfile.Accounts

/-!
# References, pipes, transactions and locks over all runs

In every state a run reaches there are records with which the accounts are right, every process inside a call
follows the protocol from where it is, and what it has done so far has its transactions one after the other
(`Good`). In a state between calls the records are what the tables say, so the counts are those of the tables.
-/

namespace Xv6.Sysfile

/-! ## What a call has done -/

def isBegin : Act E F ⊕ Blk → Bool
  | .inl .beginOp => true
  | _ => false

def isEnd : Act E F ⊕ Blk → Bool
  | .inl .endOp => true
  | _ => false

def isLock : Act E F ⊕ Blk → Bool
  | .inl (.acquiresleep _) => true
  | _ => false

def begins (tr : List (Act E F ⊕ Blk)) : Nat := tr.countP isBegin
def ends (tr : List (Act E F ⊕ Blk)) : Nat := tr.countP isEnd

/-- The transactions of a trace, the last action first: one after the other, and every `iput` inside one. `tx` is
whether one is open at the end. -/
structure Bracketed (tr : List (Act E F ⊕ Blk)) (tx : Bool) : Prop where
  count : begins tr = ends tr + tx.toNat
  alternate : ∀ tr', tr' <:+ tr → ends tr' ≤ begins tr' ∧ begins tr' ≤ ends tr' + 1
  iput : ∀ ip tr', .inl (.drop ip) :: tr' <:+ tr → begins tr' = ends tr' + 1

theorem Bracketed.start : Bracketed [] false := by
  refine ⟨rfl, fun tr' h => ?_, fun ip tr' h => ?_⟩
  · cases List.suffix_nil.1 h
    exact ⟨Nat.le_refl _, Nat.zero_le _⟩
  · cases List.suffix_nil.1 h

theorem Ghost.inherit_tx (g : Rec) (ff : File E) : (g.inherit ff).tx = g.tx := by
  rw [Ghost.inherit_eq]

theorem Ghost.bequeath_tx (g : Rec) (x : File E) : (g.bequeath x).tx = g.tx := by
  rw [Ghost.bequeath_eq]

variable {a : Act E F ⊕ Blk} {g : Rec}

/-- Only `begin_op` and `end_op` open and close a transaction. -/
theorem next_tx (hpre : (protocol buffers).pre g a) (r : Resp Blk.Resp a) :
    ((protocol buffers).next g a r).tx.toNat + (isEnd a).toNat = g.tx.toNat + (isBegin a).toNat := by
  rcases a with a | b
  · cases a with
    | beginOp =>
      have htx : g.tx = false := hpre
      rw [htx]
      rfl
    | endOp =>
      have htx : g.tx = true := hpre
      rw [htx]
      rfl
    | closeRef f =>
      cases r with
      | none => rfl
      | some ff => exact congrArg Bool.toNat (Ghost.inherit_tx (g.letGo f) ff)
    | setFile f x => exact congrArg Bool.toNat (Ghost.bequeath_tx g x)
    | filealloc => cases r <;> rfl
    | pipeInit => cases r <;> rfl
    | allocproc => cases r <;> rfl
    | panic e => cases r
    | _ => rfl
  · cases b <;> rfl

variable {tr : List (Act E F ⊕ Blk)}

theorem Bracketed.cons (h : Bracketed tr g.tx) (hpre : (protocol buffers).pre g a) (r : Resp Blk.Resp a) :
    Bracketed (a :: tr) ((protocol buffers).next g a r).tx := by
  have hcount : begins (a :: tr) = ends (a :: tr) + ((protocol buffers).next g a r).tx.toNat := by
    have hold := h.count
    have hnext := next_tx hpre r
    have hb : begins (a :: tr) = begins tr + (isBegin a).toNat := by
      cases hb : isBegin a <;> simp [begins, hb]
    have he : ends (a :: tr) = ends tr + (isEnd a).toNat := by
      cases he : isEnd a <;> simp [ends, he]
    omega
  refine ⟨hcount, fun tr' htr => ?_, fun ip tr' htr => ?_⟩
  · rcases List.suffix_cons_iff.1 htr with rfl | htr
    · have := Bool.toNat_le ((protocol buffers).next g a r).tx
      omega
    · exact h.alternate tr' htr
  rcases List.suffix_cons_iff.1 htr with heq | htr
  · obtain ⟨rfl, rfl⟩ := List.cons.inj heq
    have hold := h.count
    have htx : g.tx = true := hpre.1
    rwa [htx] at hold
  · exact h.iput ip tr' htr

/-! ## Every reachable state -/

/-- The accounts are right, and the calls are on their way. -/
def Good (s : Kernel) : Prop :=
  ∃ v, Inv s v ∧ ∀ q prog tr, s.phase q = .busy prog tr → Low.Follows Done prog (v q) ∧ Bracketed tr (v q).tx

theorem Inv.setPhase {s : Kernel} {v : Slot → Rec} {p : Slot} {x : Phase} (h : Inv s v) (hold : s.phase p ≠ .embryo)
    (hx : x ≠ .embryo) (hrest : x.isBusy = false → (v p).Rest)
    (hempty : x = .unused ∨ x = .zombie → (∀ fd, s.ofile p fd = none) ∧ s.cwd p = none) : Inv (s.setPhase p x) v :=
  ⟨h.inodes, h.files, h.pipes, h.locks, h.bufs, h.procs.setPhase hold hx hrest hempty⟩

theorem boot_icache (disk : Nat → Block) (e : E) : ((Kernel.boot disk).icache e).ref =
    ∑ q, cwdRefs ((Kernel.boot disk).cwd q) e + typeRefs (Kernel.boot disk).ftable e := by
  have hcwd : ∀ q, cwdRefs ((Kernel.boot disk).cwd q) e =
      if q = 0 then (if e = ⟨0, NINODE_pos⟩ then 1 else 0) else 0 := by
    intro q
    by_cases hq : q = 0
    · simp [Kernel.boot, cwdRefs, hq, eq_comm]
    · simp [Kernel.boot, cwdRefs, hq]
  have htypes : typeRefs (Kernel.boot disk).ftable e = 0 := by simp [typeRefs, Kernel.boot]
  rw [Finset.sum_congr rfl fun q _ => hcwd q, htypes, Finset.sum_ite_eq' Finset.univ 0]
  simp [Kernel.boot]

theorem good_boot (disk : Nat → Block) : Good (Kernel.boot disk) := by
  refine ⟨fun q => Ghost.rest ((Kernel.boot disk).ofile q) ((Kernel.boot disk).cwd q), ⟨⟨?_, ?_⟩, ⟨?_, ?_, ?_⟩,
    ⟨?_, ?_, ?_⟩, ?_, ?_, ?_⟩, ?_⟩
  · exact boot_icache disk
  · intro e e' he he' _ _
    have hzero : ∀ i, 0 < ((Kernel.boot disk).icache i).ref → i = ⟨0, NINODE_pos⟩ := by
      intro i hi
      by_contra hne
      have href : ((Kernel.boot disk).icache i).ref = 0 := if_neg hne
      omega
    rw [hzero e he, hzero e' he']
  · intro f
    simp [Kernel.boot, Ghost.rest, slotRefs]
  · intro f _
    rfl
  · intro q f hf
    exact absurd hf (Finset.notMem_empty f)
  · intro k w
    cases w <;> simp [Kernel.boot, Ghost.rest, endRefs, Pipe.isOpen]
  · intro k _
    rfl
  · intro k hk
    exact absurd hk (Nat.not_lt_zero k)
  · intro e q
    simp [Kernel.boot, Ghost.rest]
  · intro b q
    simp [Kernel.boot, Ghost.rest]
  · refine ⟨fun q => rfl, fun q => rfl, fun q _ => Ghost.rest_rest _ _, ?_, ?_, ?_, ?_⟩
    · intro q ch hq
      cases hq
    · intro q q' ch ch' hq
      cases hq
    · intro c hc
      by_cases hc0 : c = 0 <;> simp [Kernel.boot, hc0] at hc
    · intro q hq
      refine ⟨fun _ => rfl, ?_⟩
      by_cases hq0 : q = 0
      · simp [Kernel.boot, hq0] at hq
      · simp [Kernel.boot, hq0]
  · intro q prog tr hq
    by_cases hq0 : q = 0 <;> simp [Kernel.boot, hq0] at hq

section Step

variable {sb : Super} {s s' : Kernel} {p : Slot}

theorem good_call (h : Good s) (c : Call) (hp : s.phase p = .user) : Good (s.setPhase p (.busy (c.prog sb) [])) := by
  obtain ⟨v, hinv, hcalls⟩ := h
  have hrest := hinv.procs.rest p (by rw [hp]; rfl)
  refine ⟨v, hinv.setPhase (by simp [hp]) (by simp) nofun (by simp), fun q prog tr hq => ?_⟩
  by_cases hqp : q = p
  · subst hqp
    rw [Kernel.setPhase_self] at hq
    cases hq
    refine ⟨c.prog_follows sb hrest, ?_⟩
    rw [hrest.tx]
    exact .start
  · exact hcalls q prog tr (by rwa [Kernel.setPhase_of_ne _ hqp] at hq)

theorem good_act (h : Good s) {k : Resp Blk.Resp a → Low E F Ret}
    (hp : s.phase p = .busy (.act a k) tr) {o : Oracle} {r : Resp Blk.Resp a} (hr : s.perform p o a = some (r, s')) :
    Good (s'.setPhase p (.busy (k r) (a :: tr))) := by
  obtain ⟨v, hinv, hcalls⟩ := h
  have hbusy : (s.phase p).isBusy = true := by rw [hp]; rfl
  obtain ⟨⟨hpre, hfollows⟩, htx⟩ := hcalls p _ tr hp
  obtain ⟨hresp, v', hinv', hvp, hothers, hphase⟩ := hinv.perform hbusy a hpre hr
  refine ⟨v', hinv'.setPhase ?_ (by simp) nofun (by simp), fun q prog tr' hq => ?_⟩
  · rw [hphase p (.inl hbusy), hp]
    simp
  by_cases hqp : q = p
  · subst hqp
    rw [Kernel.setPhase_self] at hq
    cases hq
    rw [hvp]
    exact ⟨hfollows r hresp, htx.cons hpre r⟩
  · rw [Kernel.setPhase_of_ne _ hqp] at hq
    have hsame := hphase q (.inr (by rw [hq]; rfl))
    rw [hothers q hqp (by rw [← hsame, hq]; rfl)]
    exact hcalls q prog tr' (by rw [← hsame, hq])

theorem good_ret (h : Good s) {r : Ret} (hp : s.phase p = .busy (.ret r) tr) : Good (s.setPhase p r.phase) := by
  obtain ⟨v, hinv, hcalls⟩ := h
  have hdone : Done r (v p) := (hcalls p _ tr hp).1
  have hother : ∀ q prog tr', (s.setPhase p r.phase).phase q = .busy prog tr' → s.phase q = .busy prog tr' := by
    intro q prog tr' hq
    by_cases hqp : q = p
    · subst hqp
      rw [Kernel.setPhase_self] at hq
      cases r <;> cases hq
    · rwa [Kernel.setPhase_of_ne _ hqp] at hq
  refine ⟨v, ?_, fun q prog tr' hq => hcalls q prog tr' (hother q prog tr' hq)⟩
  cases r with
  | val n => exact hinv.setPhase (by simp [hp]) (by simp [Ret.phase]) (fun _ => hdone) (by simp [Ret.phase])
  | gone =>
    refine hinv.setPhase (by simp [hp]) (by simp [Ret.phase]) (fun _ => hdone.1) fun _ => ?_
    rw [← hinv.procs.ofile, ← hinv.procs.cwd]
    exact hdone.2

theorem good_reap (h : Good s) (hp : s.phase p = .zombie) : Good (s.setPhase p .unused) := by
  obtain ⟨v, hinv, hcalls⟩ := h
  refine ⟨v, hinv.setPhase (by simp [hp]) (by simp) (fun _ => hinv.procs.rest p (by rw [hp]; rfl))
    (fun _ => hinv.procs.empty p (.inr hp)), fun q prog tr hq => ?_⟩
  by_cases hqp : q = p
  · subst hqp
    rw [Kernel.setPhase_self] at hq
    cases hq
  · exact hcalls q prog tr (by rwa [Kernel.setPhase_of_ne _ hqp] at hq)

theorem good_step {l : Label} (h : Good s) (hs : s.step sb l = some s') : Good s' := by
  cases l with
  | call p c =>
    rw [Kernel.step] at hs
    split at hs
    · cases hs
      exact good_call h c ‹_›
    · cases hs
  | act p o =>
    rw [Kernel.step] at hs
    split at hs
    · obtain ⟨⟨r, t⟩, hr, rfl⟩ := Option.map_eq_some_iff.1 hs
      exact good_act h ‹_› hr
    · cases hs
  | ret p =>
    rw [Kernel.step] at hs
    split at hs
    · cases hs
      exact good_ret h ‹_›
    · cases hs
  | reap p =>
    rw [Kernel.step] at hs
    split at hs
    · cases hs
      exact good_reap h ‹_›
    · cases hs

end Step

theorem good_of_reach {sb : Super} {s : Kernel} (h : (machine sb).Reach s) : Good s := by
  refine h.inv (I := Good) (fun s hs => ?_) fun s l s' hI hs => good_step hI hs
  obtain ⟨disk, rfl⟩ := hs
  exact good_boot disk

/-! ## Between calls -/

/-- No call is in progress. -/
def Kernel.Quiet (s : Kernel) : Prop := ∀ q, (s.phase q).isBusy = false

instance (s : Kernel) : Decidable s.Quiet := inferInstanceAs (Decidable (∀ q, (s.phase q).isBusy = false))

section Quiet

variable {s : Kernel} {v : Slot → Rec} (h : Inv s v) (hquiet : s.Quiet)

include h hquiet

theorem Inv.rest (q : Slot) : v q = Ghost.rest (s.ofile q) (s.cwd q) := by
  have hrest := (h.procs.rest q (hquiet q)).eq
  rwa [h.procs.ofile, h.procs.cwd] at hrest

theorem Inv.icache_ref (e : E) : (s.icache e).ref =
    (Finset.univ.filter fun f => (s.ftable f).file.type = .inode e).card +
      (Finset.univ.filter fun q => s.cwd q = some e).card := by
  have hfiles : (Finset.univ.filter fun f => (s.ftable f).file.type = .inode e).card = typeRefs s.ftable e :=
    Finset.card_filter _ _
  have hcwds : (Finset.univ.filter fun q => s.cwd q = some e).card = ∑ q, (v q).irefs e := by
    rw [Finset.card_filter]
    refine Finset.sum_congr rfl fun q _ => ?_
    rw [h.rest hquiet q]
    rfl
  rw [h.inodes.count, hfiles, hcwds, Nat.add_comm]

theorem Inv.ftable_ref (f : F) :
    (s.ftable f).ref = (Finset.univ.filter fun x : Slot × Fd => s.ofile x.1 x.2 = some f).card := by
  rw [h.files.count, Finset.card_filter, Fintype.sum_prod_type]
  refine Finset.sum_congr rfl fun q _ => ?_
  rw [h.rest hquiet q]
  rfl

/-- An end of a pipe is open exactly if there is a file that is this end. -/
theorem Inv.isOpen_iff (k : Nat) (w : Bool) : (s.pipes k).isOpen w = true ↔
    ∃ f, (s.ftable f).file.type = .pipe k ∧ (s.ftable f).file.writable = w := by
  have hends : ∑ q, (v q).ends k w = 0 := by
    refine Finset.sum_eq_zero fun q _ => ?_
    rw [h.rest hquiet q]
    rfl
  have hcount := h.pipes.count k w
  rw [hends, Nat.zero_add, endRefs] at hcount
  constructor
  · intro hopen
    rw [hopen, Bool.toNat_true] at hcount
    obtain ⟨f, -, hf⟩ := Finset.exists_ne_zero_of_sum_ne_zero (hcount ▸ Nat.one_ne_zero)
    exact ⟨f, by_contra fun hno => hf (if_neg hno)⟩
  rintro ⟨f, hf⟩
  by_contra hopen
  rw [Bool.not_eq_true] at hopen
  rw [hopen, Bool.toNat_false] at hcount
  have hzero := Finset.sum_eq_zero_iff.1 hcount.symm f (Finset.mem_univ f)
  rw [if_pos hf] at hzero
  cases hzero

/-- A file with a type is open somewhere. -/
theorem Inv.exists_fd {f : F} (htype : (s.ftable f).file.type ≠ .none) : ∃ q fd, s.ofile q fd = some f := by
  have href : ∑ q, (v q).frefs f ≠ 0 := fun hzero => htype (h.files.typed f ((h.files.count f).trans hzero))
  obtain ⟨q, -, hq⟩ := Finset.exists_ne_zero_of_sum_ne_zero href
  rw [h.rest hquiet q] at hq
  change slotRefs (s.ofile q) f ≠ 0 at hq
  rw [slotRefs] at hq
  obtain ⟨fd, -, hfd⟩ := Finset.exists_ne_zero_of_sum_ne_zero hq
  exact ⟨q, fd, by_contra fun hno => hfd (if_neg hno)⟩

theorem Inv.freed_iff {k : Nat} (hk : k < s.npipes) : (s.pipes k).freed = 1 ↔
    ∀ q fd f, s.ofile q fd = some f → (s.ftable f).file.type ≠ .pipe k := by
  have hfreed : (s.pipes k).freed = 1 ↔ ∀ w, (s.pipes k).isOpen w = false := by
    rw [h.pipes.freed k hk]
    cases hr : (s.pipes k).readopen <;> cases hw : (s.pipes k).writeopen <;> simp [Pipe.isOpen, hr, hw]
  rw [hfreed]
  constructor
  · intro hclosed q fd f _ htype
    have hopen := (h.isOpen_iff hquiet k (s.ftable f).file.writable).2 ⟨f, htype, rfl⟩
    rw [hclosed] at hopen
    cases hopen
  intro hno w
  by_contra hopen
  obtain ⟨f, htype, -⟩ := (h.isOpen_iff hquiet k w).1 (by simpa using hopen)
  obtain ⟨q, fd, hfd⟩ := h.exists_fd hquiet (f := f) (by rw [htype]; simp)
  exact hno q fd f hfd htype

end Quiet

theorem Inv.freed_le {s : Kernel} {v : Slot → Rec} (h : Inv s v) (k : Nat) : (s.pipes k).freed ≤ 1 := by
  rcases Nat.lt_or_ge k s.npipes with hk | hk
  · rw [h.pipes.freed k hk]
    split <;> omega
  · rw [h.pipes.later k hk]
    exact Nat.zero_le 1

/-! ## Main results -/

/-- A call of the first process with `n` actions that all succeed, and its return. -/
def callOfInit (c : Call) (n : Nat) : List Label :=
  .call 0 c :: List.replicate n (.act 0 ⟨true, 0, none, none, none⟩) ++ [.ret 0]

/-- **Inode cache references.** In every state any processes reach with any calls there is at most one entry in use
for an inode; when no call is in progress the count of an entry is the number of open files on it and of processes
that have it as their directory. -/
theorem icache_references (sb : Super) {s : Kernel} (h : (machine sb).Reach s) :
    (∀ e e', 0 < (s.icache e).ref → 0 < (s.icache e').ref → (s.icache e).dev = (s.icache e').dev →
      (s.icache e).inum = (s.icache e').inum → e = e') ∧
    (s.Quiet → ∀ e, (s.icache e).ref =
      (Finset.univ.filter fun f => (s.ftable f).file.type = .inode e).card +
        (Finset.univ.filter fun q => s.cwd q = some e).card) := by
  obtain ⟨v, hinv, -⟩ := good_of_reach h
  exact ⟨hinv.inodes.uniq, fun hquiet => hinv.icache_ref hquiet⟩

theorem icache_references_fork : ∃ s, (machine ⟨0, 0, 0, 0, 0⟩).Reach s ∧ (s.icache ⟨0, NINODE_pos⟩).ref = 2 ∧
    (s.icache ⟨0, NINODE_pos⟩).ref =
      (Finset.univ.filter fun f => (s.ftable f).file.type = .inode ⟨0, NINODE_pos⟩).card +
        (Finset.univ.filter fun q => s.cwd q = some ⟨0, NINODE_pos⟩).card := by
  obtain ⟨s, hs, hp⟩ := Machine.exists_reachBy (M := machine ⟨0, 0, 0, 0, 0⟩) (G := fun _ _ => True)
    ⟨fun _ _ => 0, rfl⟩ (callOfInit .fork 22)
    (fun s => decide (s.Quiet ∧ (s.icache ⟨0, NINODE_pos⟩).ref = 2)) (by decide)
  obtain ⟨hquiet, href⟩ := of_decide_eq_true hp
  exact ⟨s, hs, href, (icache_references _ hs).2 hquiet _⟩

/-- **Open file references.** A pipe is never freed twice. When no call is in progress the count of a file is the
number of descriptors that are this file, a slot that is not in use has no descriptors, and a pipe has been freed
exactly if no descriptor is one of its ends. -/
theorem ftable_references (sb : Super) {s : Kernel} (h : (machine sb).Reach s) :
    (∀ k, (s.pipes k).freed ≤ 1) ∧
    (s.Quiet →
      (∀ f, (s.ftable f).ref = (Finset.univ.filter fun x : Slot × Fd => s.ofile x.1 x.2 = some f).card) ∧
      (∀ q, s.phase q = .unused → ∀ fd, s.ofile q fd = none) ∧
      ∀ k < s.npipes, (s.pipes k).freed = 1 ↔
        ∀ q fd f, s.ofile q fd = some f → (s.ftable f).file.type ≠ .pipe k) := by
  obtain ⟨v, hinv, -⟩ := good_of_reach h
  refine ⟨hinv.freed_le, fun hquiet => ⟨hinv.ftable_ref hquiet, fun q hq => ?_, fun k hk => hinv.freed_iff hquiet hk⟩⟩
  exact (hinv.procs.empty q (.inl hq)).1

theorem ftable_references_pipe : ∃ s, (machine ⟨0, 0, 0, 0, 0⟩).Reach s ∧ s.npipes = 1 ∧ (s.pipes 0).freed = 1 ∧
    ∀ q fd f, s.ofile q fd = some f → (s.ftable f).file.type ≠ .pipe 0 := by
  obtain ⟨s, hs, hp⟩ := Machine.exists_reachBy (M := machine ⟨0, 0, 0, 0, 0⟩) (G := fun _ _ => True)
    ⟨fun _ _ => 0, rfl⟩ (callOfInit (.pipe true) 10 ++ callOfInit (.close 0) 4 ++ callOfInit (.close 1) 4)
    (fun s => decide (s.Quiet ∧ s.npipes = 1 ∧ (s.pipes 0).freed = 1)) (by decide +kernel)
  obtain ⟨hquiet, hn, hfreed⟩ := of_decide_eq_true hp
  exact ⟨s, hs, hn, hfreed, (((ftable_references _ hs).2 hquiet).2.2 0 (by omega)).1 hfreed⟩

/-- **Transactions and locks balance.** When a call is about to return it has begun as many transactions as it has
ended, it never had two at once, every `iput` was inside one, and it holds no inode and no buffer. -/
theorem call_balanced (sb : Super) {s : Kernel} (h : (machine sb).Reach s) {p : Slot} {r : Ret}
    {tr : List (Act E F ⊕ Blk)} (hp : s.phase p = .busy (.ret r) tr) :
    begins tr = ends tr ∧
    (∀ tr', tr' <:+ tr → ends tr' ≤ begins tr' ∧ begins tr' ≤ ends tr' + 1) ∧
    (∀ ip tr', .inl (.drop ip) :: tr' <:+ tr → begins tr' = ends tr' + 1) ∧
    (∀ e, (s.icache e).lock ≠ some p) ∧ ∀ b, s.bufs b ≠ some p := by
  obtain ⟨v, hinv, hcalls⟩ := good_of_reach h
  obtain ⟨hdone, htx⟩ := hcalls p _ tr hp
  have hrest : (v p).Rest := by
    cases r with
    | val n => exact hdone
    | gone => exact hdone.1
  refine ⟨?_, htx.alternate, htx.iput, fun e he => ?_, fun b hb => ?_⟩
  · have hcount := htx.count
    rwa [hrest.tx] at hcount
  · have hin : e ∈ (v p).locks := (hinv.locks e p).1 he
    rw [hrest.locks] at hin
    exact Finset.notMem_empty e hin
  · have hin : b ∈ (v p).bufs := (hinv.bufs b p).1 hb
    rw [hrest.bufs] at hin
    exact Finset.notMem_empty b hin

/-- About to return 0 after one transaction, in which an inode was locked. -/
def Phase.doneAfterOne : Phase → Bool
  | .busy (.ret r) tr => r = .val 0 ∧ begins tr = 1 ∧ tr.any isLock = true
  | _ => false

/-- `chdir("/")`, on a disk with a directory as inode 1. -/
theorem call_balanced_chdir : ∃ s tr, (machine ⟨0, 0, 0, 0, 0⟩).Reach s ∧ s.phase 0 = .busy (.ret (.val 0)) tr ∧
    tr.any isLock = true ∧ begins tr = 1 ∧ ends tr = 1 ∧ ∀ e, (s.icache e).lock ≠ some 0 := by
  obtain ⟨s, hs, hp⟩ := Machine.exists_reachBy (M := machine ⟨0, 0, 0, 0, 0⟩) (G := fun _ _ => True)
    ⟨fun _ i => if i = 64 then 1 else 0, rfl⟩
    (.call 0 (.chdir (some [47])) :: List.replicate 24 (.act 0 ⟨true, 0, none, none, none⟩))
    (fun s => (s.phase 0).doneAfterOne) (by decide +kernel)
  unfold Phase.doneAfterOne at hp
  split at hp
  next r tr hph =>
    obtain ⟨rfl, hone, hlock⟩ := of_decide_eq_true hp
    obtain ⟨hsame, -, -, hfree, -⟩ := call_balanced _ hs hph
    exact ⟨s, tr, hs, hph, hlock, hone, hsame.symm.trans hone, hfree⟩
  · cases hp

end Xv6.Sysfile
