import Xv6Threading.Vm.Grow
import Xv6Threading.Vm.Threads

/-!
# User pointers inside a system call (`syscall.c:56-84`, `sysproc.c:121`, `proc.c:729`)

A system call checks its pointers against the caller's `sz` and may then sleep: `join` for a zombie, `read` and
`write` for a pipe or the console, `exec` for the disk. It uses the pointers when it runs again, in the page directory
that it shares with the caller's threads.

| here | there |
| --- | --- |
| `argptr`, `argstr` | the checks (`syscall.c:66`, `syscall.c:26-38`); `len` is where user memory has the NUL |
| `Calls.pending` | who is in such a call, and the ranges it was given |
| `wait`, `join` | what they do with the zombie they find (`proc.c:300-312`, `proc.c:748-769`) |
| `exec` | `exec.c`: the new image, the commit and `freevm` of the old directory are one step |

`join` and `exec` are the steps in which these calls succeed; `ret` is the return of any call without that.
-/

namespace Xv6.Vm

open Function

/-- The addresses from `lo` up to `hi`. -/
structure Range where
  lo : Nat
  hi : Nat
deriving DecidableEq

def argptr (sz i size : BitVec 32) : Option Range :=
  if size.toInt < 0 ∨ i ≥ sz ∨ i + size > sz then none else some ⟨i.toNat, i.toNat + size.toNat⟩

def argstr (sz addr : BitVec 32) (len : Nat) : Option Range :=
  if addr ≥ sz ∨ addr.toNat + len ≥ sz.toNat then none else some ⟨addr.toNat, addr.toNat + len + 1⟩

inductive Arg where
  | ptr (i size : BitVec 32)
  | str (addr : BitVec 32) (len : Nat)

def Arg.check (sz : BitVec 32) : Arg → Option Range
  | .ptr i size => argptr sz i size
  | .str addr len => argstr sz addr len

inductive Kind where
  | join
  | exec
  | other
deriving DecidableEq

structure Pending where
  kind : Kind
  ranges : List Range

structure Calls where
  vm : Sys
  pending : Slot → Option Pending

inductive Op where
  | base (a : Act)
  | exit (p : Slot)
  | wait (p : Slot)
  | enter (p : Slot) (k : Kind) (args : List Arg)
  | join (p : Slot)
  | exec (p : Slot) (tops : List Nat) (e : Ending)
  | ret (p : Slot)

namespace Sys

def exit (s : Sys) (p : Slot) : Option Sys :=
  if p = s.initproc then none else some { s with pt := s.pt.exitTable p s.initproc }

/-- The slot of `z` is free again, its kernel stack freed. -/
def bury (s : Sys) (z : Slot) (k : Kmem) : Sys :=
  { s with pt := s.pt.reap z, kstack := update s.kstack z none, kmem := k }

def join (L : Layout) (s : Sys) (p : Slot) : Except Panic (Option Sys) :=
  match s.pt.zombieThread p with
  | none => .ok none
  | some z =>
    match s.kstack z with
    | none => .ok none
    | some f => (kfree L s.kmem f).map fun k => some (s.bury z k)

def wait (L : Layout) (s : Sys) (p : Slot) : Except Panic (Option Sys) :=
  match s.pt.zombieChild p with
  | none => .ok none
  | some z =>
    match s.kstack z, s.dirs (s.pt z).pgdir with
    | some f, some pgd =>
      match kfree L s.kmem f with
      | .error e => .error e
      | .ok k =>
        (freevm L ⟨k, pgd⟩ (s.pt z).pgdir).map fun k =>
          some { s.bury z k with dirs := update s.dirs (s.pt z).pgdir none }
    | _, _ => .ok none

def exec (L : Layout) (s : Sys) (p : Slot) (tops : List Nat) (e : Ending) : Except Panic (Option Sys) :=
  match execImage L s.kmem tops e with
  | .error e => .error e
  | .ok (k, none) => .ok (some { s with kmem := k })
  | .ok (k, some (d, pgd, sz)) =>
    match s.dirs (s.pt p).pgdir with
    | none => .ok none
    | some old =>
      (freevm L ⟨k, old⟩ (s.pt p).pgdir).map fun k => some { s with
        pt := s.pt.modify p fun q => { q with pgdir := d, sz := BitVec.ofNat 32 sz }
        dirs := update (update s.dirs d (some pgd)) (s.pt p).pgdir none
        kmem := k }

end Sys

def Act.caller : Act → Slot
  | .clone p _ | .fork p | .sbrk p _ => p

/-- A state in which nothing panicked. -/
def settled (r : Except Panic (Option Sys)) : Option Sys :=
  match r with
  | .ok s => s
  | .error _ => none

namespace Calls

/-- `p` runs and is not in a call. -/
def Idle (s : Calls) (p : Slot) : Prop := (s.vm.pt p).state = .RUNNABLE ∧ s.pending p = none

instance (s : Calls) (p : Slot) : Decidable (s.Idle p) := by unfold Idle; infer_instance

/-- `p` is in a call of this kind. -/
def inCall (s : Calls) (p : Slot) (k : Kind) : Bool := (s.pending p).any fun c => c.kind = k

def setVm (s : Calls) (vm : Sys) : Calls := { s with vm := vm }
def setPending (s : Calls) (p : Slot) (c : Option Pending) : Calls :=
  { s with pending := update s.pending p c }

def step (L : Layout) (s : Calls) : Op → Option Calls
  | .base a => if s.Idle a.caller then (s.vm.step L a).map s.setVm else none
  | .exit p => if s.Idle p then (s.vm.exit p).map s.setVm else none
  | .wait p => if s.Idle p then (settled (s.vm.wait L p)).map s.setVm else none
  | .enter p k args =>
    if s.Idle p then
      match args.mapM (Arg.check (s.vm.pt p).sz) with
      | none => some s
      | some ranges => some (s.setPending p (some ⟨k, ranges⟩))
    else none
  | .join p =>
    if s.inCall p .join then (settled (s.vm.join L p)).map fun vm => (s.setVm vm).setPending p none else none
  | .exec p tops e =>
    if s.inCall p .exec then (settled (s.vm.exec L p tops e)).map fun vm => (s.setVm vm).setPending p none else none
  | .ret p => if (s.pending p).isSome then some (s.setPending p none) else none

end Calls

/-! ## The invariant -/

/-- It has a page directory, perhaps with others. -/
def hasDir (st : Procstate) : Bool := st.live || st = .ZOMBIE

structure Sound (L : Layout) (U : Set Ppn) (s : Sys) : Prop where
  usable : Usable L U
  split : Split U s.kmem.free (place s.kstack s.dirs)
  unused : ∀ p, (s.pt p).state = .UNUSED → s.kstack p = none
  dir : ∀ p, hasDir (s.pt p).state = true → (s.dirs (s.pt p).pgdir).isSome
  size : ∀ p, (s.pt p).state.live = true → s.sz p < KERNBASE
  covers : ∀ p pgd, (s.pt p).state.live = true → s.dirs (s.pt p).pgdir = some pgd → Covers pgd (s.sz p)

/-- Who is in a call is alive, and the ranges it was given are below its size. -/
structure Held (s : Calls) : Prop where
  live : ∀ p c, s.pending p = some c → (s.vm.pt p).state.live = true
  below : ∀ p c r, s.pending p = some c → r ∈ c.ranges → r.hi ≤ s.vm.sz p

/-- One process, with the pages below its size mapped, and physical memory split as it should. -/
def callMachine (L : Layout) (U : Set Ppn) : Machine Calls Op where
  init s := Sound L U s.vm ∧ (∃ p, ∀ q, hasDir (s.vm.pt q).state = true → q = p) ∧ ∀ p, s.pending p = none
  step := Calls.step L

/-- No other process or thread, alive or zombie, has the page directory of `p`. -/
def Sole (s : Sys) (p : Slot) : Prop :=
  ∀ q, q ≠ p → hasDir (s.pt q).state = true → (s.pt q).pgdir ≠ (s.pt p).pgdir

instance (s : Sys) (p : Slot) : Decidable (Sole s p) := by unfold Sole; infer_instance

instance (sz : Nat) (n : Int) : Decidable (Fits sz n) := by unfold Fits; infer_instance

/-- `sbrk(n)` changes the size to one that is in range, and not to zero, and it moves over no page of another
thread: none has a size above the caller's old or new one, or no page lies between the two. -/
def SbrkApart (s : Sys) (p : Slot) (n : Int) : Prop :=
  ¬ (n < 0 ∧ s.sz p + n = 0) ∧ (pageCount (s.sz p + n).toNat = pageCount (s.sz p) ∨
    ∀ q, q ≠ p → (s.pt q).state.live = true → (s.pt q).pgdir = (s.pt p).pgdir →
      pageCount (s.sz q) ≤ pageCount (s.sz p) ∧ pageCount (s.sz q) ≤ pageCount (s.sz p + n).toNat)

instance (s : Sys) (p : Slot) (n : Int) : Decidable (SbrkApart s p n) := by unfold SbrkApart; infer_instance

/-- `sbrk` keeps clear of the other threads' pages, and a directory is freed when nobody else has it. -/
def Careful (s : Calls) : Op → Prop
  | .base (.sbrk p n) => Fits (s.vm.sz p) n.toInt → SbrkApart s.vm p n.toInt
  | .wait p => ∀ z, s.vm.pt.zombieChild p = some z → Sole s.vm z
  | .exec p _ .commit => Sole s.vm p
  | _ => True

instance (s : Calls) : (a : Op) → Decidable (Careful s a)
  | .base (.sbrk p n) => inferInstanceAs (Decidable (Fits (s.vm.sz p) n.toInt → SbrkApart s.vm p n.toInt))
  | .wait p => inferInstanceAs (Decidable (∀ z, s.vm.pt.zombieChild p = some z → Sole s.vm z))
  | .exec p _ .commit => inferInstanceAs (Decidable (Sole s.vm p))
  | .base (.clone _ _) | .base (.fork _) | .exit _ | .enter _ _ _ | .join _ | .exec _ _ .badFile
  | .exec _ _ .badArgs | .ret _ => inferInstanceAs (Decidable True)

/-! ### The sound states, edited -/

section Edit

variable {L : Layout} {U : Set Ppn} {s : Sys}

theorem hasDir_of_live {st : Procstate} (h : st.live = true) : hasDir st = true := by simp [hasDir, h]

/-- Slots change their state, and keep their directory or give it up. -/
theorem Sound.of_pt (h : Sound L U s) {pt : Ptable}
    (hd : ∀ q, hasDir (pt q).state = true → hasDir (s.pt q).state = true)
    (hl : ∀ q, (pt q).state.live = true → (s.pt q).state.live = true)
    (hu : ∀ q, (pt q).state = .UNUSED → (s.pt q).state = .UNUSED)
    (hsz : ∀ q, (pt q).sz = (s.pt q).sz ∧ (pt q).pgdir = (s.pt q).pgdir) : Sound L U { s with pt := pt } := by
  refine ⟨h.usable, h.split, fun q hq => h.unused q (hu q hq), ?_, ?_, ?_⟩
  · intro q hq
    simp only [(hsz q).2]
    exact h.dir q (hd q hq)
  · intro q hq
    simp only [Sys.sz, (hsz q).1]
    exact h.size q (hl q hq)
  · intro q pgd hq hpgd
    simp only [(hsz q).2] at hpgd
    simp only [Sys.sz, (hsz q).1]
    exact h.covers q pgd (hl q hq) hpgd

variable {k : Kmem} {f : Proc → Proc} {pgd : Pgd} {d : Ppn}

/-- A slot is edited and has no directory then; its kernel stack is `o`. -/
theorem Sound.edit (h : Sound L U s) (np : Slot) {o : Option Ppn} {pid : BitVec 32}
    (hf : hasDir (f (s.pt np)).state = false) (ho : (f (s.pt np)).state = .UNUSED → o = none)
    (hs : Split U k.free (update (place s.kstack s.dirs) (.kstack np) o)) :
    Sound L U { s with
      pt := s.pt.modify np f, nextpid := pid, kstack := update s.kstack np o, kmem := k } := by
  have hne : ∀ q, hasDir (s.pt.modify np f q).state = true → s.pt.modify np f q = s.pt q := by
    intro q hq
    apply Ptable.modify_ne
    rintro rfl
    rw [Ptable.modify_self, hf] at hq
    cases hq
  refine ⟨h.usable, by simpa only [place_kstack] using hs, ?_, ?_, ?_, ?_⟩
  · intro q hq
    by_cases e : q = np
    · subst e
      simp only [Ptable.modify_self] at hq
      simp [ho hq]
    · simp only [Ptable.modify_ne _ _ e] at hq
      simp [e, h.unused q hq]
  · intro q hq
    simp only [hne q hq] at hq ⊢
    exact h.dir q hq
  · intro q hq
    simp only [Sys.sz, hne q (hasDir_of_live hq)] at hq ⊢
    exact h.size q hq
  · intro q pgd hq hpgd
    simp only [Sys.sz, hne q (hasDir_of_live hq)] at hq hpgd ⊢
    exact h.covers q pgd hq hpgd

/-- A slot gets the directory `d`, with the contents `pgd`: one with contents before, or a new one. The other slots
with `d` are still covered. -/
theorem Sound.give (h : Sound L U s) {np : Slot} (hs : Split U k.free (place s.kstack (update s.dirs d (some pgd))))
    (hu : (f (s.pt np)).state ≠ .UNUSED) (hd : (f (s.pt np)).pgdir = d) (hsz : (f (s.pt np)).sz.toNat < KERNBASE)
    (hc : Covers pgd (f (s.pt np)).sz.toNat)
    (hother : ∀ q, q ≠ np → (s.pt q).state.live = true → (s.pt q).pgdir = d → Covers pgd (s.sz q)) :
    Sound L U { s with pt := s.pt.modify np f, dirs := update s.dirs d (some pgd), kmem := k } := by
  refine ⟨h.usable, hs, ?_, ?_, ?_, ?_⟩
  · intro q hq
    by_cases e : q = np
    · subst e
      simp only [Ptable.modify_self] at hq
      exact absurd hq hu
    · simp only [Ptable.modify_ne _ _ e] at hq
      exact h.unused q hq
  · intro q hq
    by_cases e : q = np
    · simp [e, hd]
    simp only [Ptable.modify_ne _ _ e] at hq ⊢
    rw [update_apply]
    split
    · rfl
    · exact h.dir q hq
  · intro q hq
    by_cases e : q = np
    · subst e
      simpa only [Sys.sz, Ptable.modify_self] using hsz
    · simp only [Sys.sz, Ptable.modify_ne _ _ e] at hq ⊢
      exact h.size q hq
  intro q pgd' hq hpgd'
  by_cases e : q = np
  · subst e
    simp only [Sys.sz, Ptable.modify_self, hd, update_self, Option.some.injEq] at hpgd' ⊢
    exact hpgd' ▸ hc
  simp only [Sys.sz, Ptable.modify_ne _ _ e] at hq hpgd' ⊢
  by_cases ed : (s.pt q).pgdir = d
  · simp only [ed, update_self, Option.some.injEq] at hpgd'
    exact hpgd' ▸ hother q e hq ed
  · simp only [update_of_ne ed] at hpgd'
    exact h.covers q pgd' hq hpgd'

/-- A directory that nobody has is freed. -/
theorem Sound.drop (h : Sound L U s) (hd : s.dirs d = some pgd)
    (hno : ∀ q, hasDir (s.pt q).state = true → (s.pt q).pgdir ≠ d) (hk : freevm L ⟨s.kmem, pgd⟩ d = .ok k) :
    Sound L U { s with dirs := update s.dirs d none, kmem := k } := by
  refine ⟨h.usable, ?_, h.unused, ?_, h.size, ?_⟩
  · obtain ⟨k', hk', hs⟩ := freevm_spec h.usable ((owns_iff_split hd).2 h.split) (x := .dir d) (d := d)
      (by simp [outside, hd])
    rw [hk] at hk'
    cases hk'
    rwa [← place_free] at hs
  · intro q hq
    simp only [update_of_ne (hno q hq)]
    exact h.dir q hq
  · intro q pgd' hq hpgd'
    simp only [update_of_ne (hno q (hasDir_of_live hq))] at hpgd'
    exact h.covers q pgd' hq hpgd'

/-- A zombie is reaped and its kernel stack freed. -/
theorem Sound.bury (h : Sound L U s) {z : Slot} {f : Ppn} (hf : s.kstack z = some f)
    (hk : kfree L s.kmem f = .ok k) : Sound L U (s.bury z k) := by
  have hf' : place s.kstack s.dirs (.kstack z) = some f := hf
  obtain ⟨k', hk', hfree⟩ := kfree_spec h.usable (h.split.mem_of_loc hf') s.kmem
  rw [hk] at hk'
  cases hk'
  apply h.edit z rfl (fun _ => rfl)
  rw [hfree]
  exact h.split.give hf'

end Edit

/-! ### The steps

What a call of `p` leaves: a sound state in which the others live on, with the sizes they had. -/

/-- The other live slots are as alive and as large as before. -/
def Spares (p : Slot) (s s' : Sys) : Prop :=
  ∀ q, q ≠ p → (s.pt q).state.live = true → (s'.pt q).state.live = true ∧ s'.sz q = s.sz q

section Steps

variable {L : Layout} {U : Set Ppn} {s s' : Sys} {p : Slot} {dirs : Ppn → Option Pgd} {k : Kmem}

/-- Only slots without a directory change. -/
theorem Spares.of_frame (h : ∀ q, (s.pt q).state.live = true → s'.pt q = s.pt q) : Spares p s s' := by
  intro q _ hq
  simp only [Sys.sz, h q hq]
  exact ⟨hq, trivial⟩

/-- A slot that is not live changes, after changes to slots without a directory. -/
theorem Spares.of_new {s1 : Sys} {np : Slot} (hframe : ∀ q, hasDir (s.pt q).state = true → s1.pt q = s.pt q)
    (hnp : (s.pt np).state.live = false) (hoff : ∀ q, q ≠ np → s'.pt q = s1.pt q) : Spares p s s' := by
  apply Spares.of_frame
  intro q hq
  rw [hoff q ?_, hframe q (hasDir_of_live hq)]
  rintro rfl
  rw [hnp] at hq
  cases hq

theorem Spares.modify {f : Proc → Proc} {pid : BitVec 32} {ks : Slot → Option Ppn}
    : Spares p s { s with pt := s.pt.modify p f, nextpid := pid, kstack := ks, dirs := dirs, kmem := k } := by
  intro q hq hl
  simp only [Sys.sz, Ptable.modify_ne _ _ hq]
  exact ⟨hl, trivial⟩

section

variable (h : Sound L U s)
include h

/-- `allocproc` touches no slot that has a directory. -/
theorem alloc_sound : Sound L U s.alloc.1 ∧
    (∀ q, hasDir (s.pt q).state = true → s.alloc.1.pt q = s.pt q) ∧
    ∀ np, s.alloc.2 = some np → (s.pt np).state = .UNUSED := by
  rcases alloc_cases h.split h.unused with ha | ⟨np, f, o, k, r, hnp, ha, hf, ho, hs, hr⟩ <;> rw [ha]
  · refine ⟨h, fun _ _ => rfl, ?_⟩
    rintro np ⟨⟩
  refine ⟨h.edit np ?_ ho hs, ?_, ?_⟩
  · rcases hf with hf | hf <;> rw [hf] <;> rfl
  · intro q hq
    apply Ptable.modify_ne
    rintro rfl
    simp [hnp, hasDir, Procstate.live] at hq
  · intro np' hnp'
    rw [(hr np' hnp').1]
    exact hnp

section

variable (hp : (s.pt p).state = .RUNNABLE)
include hp

theorem exit_sound (hs : s.exit p = some s') : Sound L U s' ∧ Spares p s s' := by
  unfold Sys.exit at hs
  split at hs
  · cases hs
  cases hs
  -- a sleeping slot may become runnable; nothing else happens to a slot other than `p`
  have hstate : ∀ q, q ≠ p → (s.pt.exitTable p s.initproc q).state = (s.pt q).state ∨
      (s.pt q).state = .SLEEPING ∧ (s.pt.exitTable p s.initproc q).state = .RUNNABLE := by
    intro q e
    rw [Ptable.exitTable_state _ _ _ e]
    split
    next hz =>
      exact .inr ⟨hz.1, rfl⟩
    · exact .inl rfl
  have hframe : ∀ q, (s.pt.exitTable p s.initproc q).sz = (s.pt q).sz ∧
      (s.pt.exitTable p s.initproc q).pgdir = (s.pt q).pgdir := by
    intro q
    rw [Ptable.exitTable_frame]
    exact ⟨rfl, rfl⟩
  refine ⟨h.of_pt ?_ ?_ ?_ hframe, ?_⟩
  · intro q hq
    by_cases e : q = p
    · rw [e, hp]
      rfl
    rcases hstate q e with heq | ⟨hsl, -⟩
    · rwa [heq] at hq
    · rw [hsl]
      rfl
  · intro q hq
    by_cases e : q = p
    · rw [e, hp]
      rfl
    rcases hstate q e with heq | ⟨hsl, -⟩
    · rwa [heq] at hq
    · rw [hsl]
      rfl
  · intro q hq
    by_cases e : q = p
    · simp [e] at hq
    rcases hstate q e with heq | ⟨-, hr⟩
    · rwa [heq] at hq
    · rw [hr] at hq
      cases hq
  intro q e hq
  simp only [Sys.sz, (hframe q).1, and_true]
  rcases hstate q e with heq | ⟨-, hr⟩
  · rwa [heq]
  · rw [hr]
    rfl

theorem clone_sound {stack : BitVec 32} (hs : s.clone p stack = some s') : Sound L U s' ∧ Spares p s s' := by
  have hpl := live_of_runnable hp
  unfold Sys.clone at hs
  split at hs
  · exact exit_sound h hp hs
  obtain ⟨hg, hframe, hnew⟩ := alloc_sound h
  have hp' := hframe p (hasDir_of_live hpl)
  rcases hs1 : s.alloc with ⟨s1, _ | np⟩ <;> simp only [hs1] at hs hg hp' hframe hnew
  · cases hs
    exact ⟨hg, .of_frame fun q hq => hframe q (hasDir_of_live hq)⟩
  cases hs
  have hnp := hnew np rfl
  obtain ⟨pgd, hpgd⟩ := Option.isSome_iff_exists.1 (hg.dir p (by rw [hp']; exact hasDir_of_live hpl))
  have hpl' : (s1.pt p).state.live = true := by rw [hp']; exact hpl
  -- the directory is that of `p`, with the contents it has
  have hdirs : update s1.dirs (s1.pt p).pgdir (some pgd) = s1.dirs := by
    rw [← hpgd, update_eq_self]
  have hsplit := hg.split
  rw [← hdirs] at hsplit
  have heq : s1.thread p np stack =
      { s1.thread p np stack with dirs := update s1.dirs (s1.pt p).pgdir (some pgd) } := by
    rw [hdirs]
    rfl
  refine ⟨?_, .of_new hframe (by rw [hnp]; rfl) fun q e => by simp only [Sys.thread, Ptable.modify_ne _ _ e]⟩
  rw [heq]
  simp only [Sys.thread]
  refine hg.give hsplit ?_ ?_ ?_ ?_ ?_
  · simp
  · rfl
  · exact hg.size p hpl'
  · exact hg.covers p pgd hpl' hpgd
  · intro q _ hq hqd
    exact hg.covers q pgd hq (hqd ▸ hpgd)

theorem fork_sound (hs : s.fork L p = .ok (some s')) : Sound L U s' ∧ Spares p s s' := by
  have hpl := live_of_runnable hp
  obtain ⟨hg, hframe, hnew⟩ := alloc_sound h
  have hp' := hframe p (hasDir_of_live hpl)
  unfold Sys.fork at hs
  rcases hs1 : s.alloc with ⟨s1, _ | np⟩ <;> simp only [hs1] at hs hg hp' hframe hnew
  · cases hs
    exact ⟨hg, .of_frame fun q hq => hframe q (hasDir_of_live hq)⟩
  have hnp := hnew np rfl
  have hpl' : (s1.pt p).state.live = true := by rw [hp']; exact hpl
  obtain ⟨src, hsrc⟩ := Option.isSome_iff_exists.1 (hg.dir p (hasDir_of_live hpl'))
  have hsz := hg.size p hpl'
  obtain ⟨k, r, hk, hr⟩ := copyuvm_spec hg.usable hg.split hsz.le (hg.covers p src hpl' hsrc)
  have hnp' : (s.pt np).state.live = false := by rw [hnp]; rfl
  simp only [hsrc, hk] at hs
  cases r with
  | some r =>
    obtain ⟨d, pgd⟩ := r
    obtain ⟨ho, hmaps, -, -⟩ := hr
    obtain ⟨hd, hsplit⟩ := split_adopt ho
    cases hs
    refine ⟨hg.give hsplit (by simp) rfl hsz ?_ ?_, .of_new hframe hnp' fun q e => by
      simp only [Sys.child, Ptable.modify_ne _ _ e]⟩
    · intro w hw
      exact (hmaps w (Nat.lt_of_lt_of_le hw (pageCount_le_upages hsz.le))).2 hw
    intro q _ hq hqd
    have := hg.dir q (hasDir_of_live hq)
    rw [hqd, hd] at this
    cases this
  | none =>
    cases hf : s1.kstack np with
    | none =>
      rw [hf] at hs
      cases hs
    | some f =>
      have hf' : place s1.kstack s1.dirs (.kstack np) = some f := hf
      obtain ⟨k', hk', hfree⟩ := kfree_spec hg.usable (Split.mem_of_loc hr hf') k
      simp only [hf, hk', Except.map] at hs
      cases hs
      refine ⟨hg.edit np rfl (fun _ => rfl) ?_, .of_new hframe hnp' fun q e => by
        simp only [Sys.giveUp, Ptable.modify_ne _ _ e]⟩
      rw [hfree]
      exact Split.give hr hf'

theorem sbrk_sound {n : BitVec 32}
    (hg : Fits (s.sz p) n.toInt → SbrkApart s p n.toInt) (hs : s.sbrk L p n = .ok (some s')) :
    Sound L U s' ∧ Spares p s s' := by
  have hpl := live_of_runnable hp
  obtain ⟨pgd, hd⟩ := Option.isSome_iff_exists.1 (h.dir p (hasDir_of_live hpl))
  have hsz := h.size p hpl
  have hlo : -2 ^ 31 ≤ n.toInt := by have := BitVec.le_toInt n; omega
  have hhi : n.toInt < 2 ^ 31 := by have := BitVec.toInt_lt (x := n); omega
  simp only [Sys.sbrk, hd] at hs
  cases hgrow : growproc L ⟨s.kmem, pgd⟩ (s.sz p) n.toInt with
  | error e =>
    rw [hgrow] at hs
    cases hs
  | ok r =>
    obtain ⟨sp, sz', r⟩ := r
    rw [hgrow] at hs
    cases hs
    have hG := growproc_ok h.usable ((owns_iff_split hd).2 h.split) hsz hlo hhi hgrow
    have hnat : (BitVec.ofNat 32 sz').toNat = sz' := by
      rw [BitVec.toNat_ofNat]
      exact Nat.mod_eq_of_lt (hG.size.trans (by decide))
    have hcov := h.covers p pgd hpl hd
    refine ⟨h.give ?_ (by simp [hp]) rfl ?_ ?_ ?_, .modify⟩
    · apply (owns_iff_split (d := (s.pt p).pgdir) (update_self ..)).1
      rw [outside_update (by simp [hd])]
      exact hG.owns
    · simpa only [hnat] using hG.size
    · simp only [hnat]
      by_cases hf : Fits (s.sz p) n.toInt
      · exact hG.covers hf (hg hf).1 hcov
      · obtain ⟨rfl, rfl⟩ := hG.same hf
        exact hcov
    intro q e hq hqd w hw
    have hwas : present pgd w = true := h.covers q pgd hq (hqd ▸ hd) w hw
    by_cases hf : Fits (s.sz p) n.toInt
    · rw [present, hG.kept hf w ?_]
      · exact hwas
      · rcases (hg hf).2 with heq | hall
        · omega
        · have := hall q e hq hqd
          omega
    · obtain ⟨rfl, -⟩ := hG.same hf
      exact hwas

end

end

theorem bury_spares {z : Slot} (hz : (s.pt z).state = .ZOMBIE) : Spares p s { s.bury z k with dirs := dirs } := by
  have hz' : (s.pt z).state.live = false := by
    rw [hz]
    rfl
  apply Spares.of_new (fun q _ => show s.pt q = s.pt q from rfl) hz'
  intro q e
  simp only [Sys.bury, Ptable.reap, Ptable.modify_ne _ _ e]

theorem join_sound (h : Sound L U s) (hs : s.join L p = .ok (some s')) : Sound L U s' ∧ Spares p s s' := by
  unfold Sys.join at hs
  cases hz : s.pt.zombieThread p with
  | none => simp [hz] at hs
  | some z =>
    cases hf : s.kstack z with
    | none => simp [hz, hf] at hs
    | some f =>
      simp only [hz, hf] at hs
      cases hk : kfree L s.kmem f with
      | error e => simp [hk, Except.map] at hs
      | ok k =>
        simp only [hk, Except.map, Except.ok.injEq, Option.some.injEq] at hs
        subst hs
        exact ⟨h.bury hf hk, bury_spares (Ptable.zombieThread_some hz).2.2⟩

theorem wait_sound (h : Sound L U s) (hg : ∀ z, s.pt.zombieChild p = some z → Sole s z)
    (hs : s.wait L p = .ok (some s')) : Sound L U s' ∧ Spares p s s' := by
  unfold Sys.wait at hs
  cases hz : s.pt.zombieChild p with
  | none => simp [hz] at hs
  | some z =>
    cases hf : s.kstack z with
    | none => simp [hz, hf] at hs
    | some f =>
      cases hd : s.dirs (s.pt z).pgdir with
      | none => simp [hz, hf, hd] at hs
      | some pgd =>
        simp only [hz, hf, hd] at hs
        cases hk : kfree L s.kmem f with
        | error e => simp [hk] at hs
        | ok k =>
          simp only [hk] at hs
          cases hv : freevm L ⟨k, pgd⟩ (s.pt z).pgdir with
          | error e => simp [hv, Except.map] at hs
          | ok k' =>
            simp only [hv, Except.map, Except.ok.injEq, Option.some.injEq] at hs
            subst hs
            refine ⟨(h.bury hf hk).drop hd ?_ hv, bury_spares (Ptable.zombieChild_some hz).2⟩
            intro q hq
            by_cases e : q = z
            · simp [Sys.bury, Ptable.reap, e, hasDir, Procstate.live] at hq
            · simp only [Sys.bury, Ptable.reap, Ptable.modify_ne _ _ e] at hq ⊢
              exact hg z hz q e hq

theorem exec_sound (h : Sound L U s) (hp : (s.pt p).state.live = true) {tops : List Nat} {e : Ending}
    (hg : e = .commit → Sole s p) (hs : s.exec L p tops e = .ok (some s')) : Sound L U s' ∧ Spares p s s' := by
  unfold Sys.exec at hs
  cases hi : execImage L s.kmem tops e with
  | error e => simp [hi] at hs
  | ok r =>
    obtain ⟨k, r⟩ := r
    have hok := execImage_ok h.usable h.split hi
    cases r with
    | none =>
      simp only [hi, Except.ok.injEq, Option.some.injEq] at hs
      subst hs
      exact ⟨⟨h.usable, hok, h.unused, h.dir, h.size, h.covers⟩, .of_frame fun _ _ => rfl⟩
    | some r =>
      obtain ⟨d, pgd, sz⟩ := r
      obtain ⟨hcommit, ho, hsz, hc⟩ := hok
      obtain ⟨hnew, hsplit⟩ := split_adopt ho
      obtain ⟨old, hold⟩ := Option.isSome_iff_exists.1 (h.dir p (hasDir_of_live hp))
      simp only [hi, hold] at hs
      cases hv : freevm L ⟨k, old⟩ (s.pt p).pgdir with
      | error e => simp [hv, Except.map] at hs
      | ok k' =>
        simp only [hv, Except.map, Except.ok.injEq, Option.some.injEq] at hs
        subst hs
        have hnat : (BitVec.ofNat 32 sz).toNat = sz := by
          rw [BitVec.toNat_ofNat]
          exact Nat.mod_eq_of_lt (hsz.trans (by decide))
        have hne : (s.pt p).pgdir ≠ d := by
          rintro rfl
          rw [hnew] at hold
          cases hold
        have hused : (s.pt p).state ≠ .UNUSED := by
          intro hu
          rw [hu] at hp
          cases hp
        have hgive := h.give (f := fun q => { q with pgdir := d, sz := BitVec.ofNat 32 sz }) hsplit hused rfl (by simpa only [hnat] using hsz)
          (by simpa only [hnat] using hc) (by
            intro q _ hq hqd
            have := h.dir q (hasDir_of_live hq)
            rw [hqd, hnew] at this
            cases this)
        refine ⟨hgive.drop ((update_of_ne hne _ _).trans hold) ?_ hv, .modify⟩
        intro q hq
        by_cases eq : q = p
        · simpa [eq] using hne.symm
        · simp only [Ptable.modify_ne _ _ eq] at hq ⊢
          exact hg hcommit q eq hq

end Steps

/-! ## Every step -/

section Run

variable {L : Layout} {U : Set Ppn} {s s' : Calls}

theorem settled_eq_some {r : Except Panic (Option Sys)} {t : Sys} (h : settled r = some t) : r = .ok (some t) := by
  cases r with
  | error e => cases h
  | ok o => exact congrArg Except.ok h

variable {sz : BitVec 32} {r : Range}

/-- An accepted range ends at most at the caller's size: both numbers are below `2 ^ 31`, so the sum does not wrap. -/
theorem argptr_below {i size : BitVec 32} (hsz : sz.toNat < KERNBASE)
    (h : argptr sz i size = some r) : r.hi ≤ sz.toNat := by
  unfold argptr at h
  split at h
  · cases h
  rename_i hc
  cases h
  simp only [not_or, not_lt, ge_iff_le, gt_iff_lt] at hc
  obtain ⟨hsize, hi, hsum⟩ := hc
  have hk : KERNBASE = 2 ^ 31 := rfl
  have hpos := BitVec.toInt_eq_toNat_cond size
  simp only [BitVec.lt_def, BitVec.le_def, BitVec.toNat_add] at hi hsum
  split at hpos
  · show i.toNat + size.toNat ≤ sz.toNat
    omega
  · omega

theorem argstr_below {addr : BitVec 32} {len : Nat} (h : argstr sz addr len = some r) : r.hi ≤ sz.toNat := by
  unfold argstr at h
  split at h
  · cases h
  rename_i hc
  cases h
  simp only [not_or, not_le] at hc
  exact hc.2

theorem check_below (hsz : sz.toNat < KERNBASE) {a : Arg} (h : a.check sz = some r) : r.hi ≤ sz.toNat := by
  cases a with
  | ptr i size => exact argptr_below hsz h
  | str addr len => exact argstr_below h

/-- All the ranges of a call. -/
theorem checks_below (hsz : sz.toNat < KERNBASE) : ∀ {args : List Arg} {ranges : List Range}
    (_ : args.mapM (Arg.check sz) = some ranges), ∀ r ∈ ranges, r.hi ≤ sz.toNat := by
  intro args
  induction args with
  | nil =>
    intro ranges h r hr
    cases h
    cases hr
  | cons a args ih =>
    intro ranges h r hr
    simp only [List.mapM_cons, Option.bind_eq_bind, Option.bind_eq_some_iff, Option.pure_def, Option.some.injEq] at h
    obtain ⟨x, hx, xs, hxs, rfl⟩ := h
    rcases List.mem_cons.1 hr with rfl | hr
    · exact check_below hsz hx
    · exact ih hxs r hr

/-- The invariant of a careful run. -/
def CallInv (L : Layout) (U : Set Ppn) (s : Calls) : Prop := Sound L U s.vm ∧ Held s

variable {vm : Sys} {p : Slot}

/-- `p` is in no call after the step; the others' calls are as before. -/
theorem Held.of_spares (h : Held s) {pending : Slot → Option Pending}
    (hp : pending p = none) (hother : ∀ q, q ≠ p → pending q = s.pending q) (hs : Spares p s.vm vm) :
    Held ⟨vm, pending⟩ := by
  have hq : ∀ q c, pending q = some c → q ≠ p ∧ s.pending q = some c := by
    intro q c hc
    have e : q ≠ p := by
      rintro rfl
      rw [hp] at hc
      cases hc
    exact ⟨e, by rw [← hother q e, hc]⟩
  refine ⟨?_, ?_⟩
  · intro q c hc
    obtain ⟨e, hc⟩ := hq q c hc
    exact (hs q e (h.live q c hc)).1
  intro q c r hc hr
  obtain ⟨e, hc⟩ := hq q c hc
  simp only [(hs q e (h.live q c hc)).2]
  exact h.below q c r hc hr

section

variable (h : CallInv L U s)
include h

/-- A call of a process that is in none. -/
theorem CallInv.of_idle (hp : s.Idle p) (hs : Sound L U vm ∧ Spares p s.vm vm) : CallInv L U (s.setVm vm) :=
  ⟨hs.1, h.2.of_spares hp.2 (fun _ _ => rfl) hs.2⟩

/-- The end of a call. -/
theorem CallInv.of_done (hs : Sound L U vm ∧ Spares p s.vm vm) : CallInv L U ((s.setVm vm).setPending p none) :=
  ⟨hs.1, h.2.of_spares (update_self ..) (fun _ e => update_of_ne e _ _) hs.2⟩

theorem base_inv {a : Act} (hg : Careful s (.base a)) (hp : s.Idle a.caller)
    (hs : s.vm.step L a = some vm) : CallInv L U (s.setVm vm) := by
  apply h.of_idle hp
  have hcall : s.vm.call L a = .ok (some vm) := settled_eq_some hs
  cases a with
  | clone p stack =>
    have hp : (s.vm.pt p).state = .RUNNABLE := hp.1
    simp only [Sys.call, if_pos hp, Except.ok.injEq] at hcall
    exact clone_sound h.1 hp hcall
  | fork p =>
    have hp : (s.vm.pt p).state = .RUNNABLE := hp.1
    simp only [Sys.call, if_pos hp] at hcall
    exact fork_sound h.1 hp hcall
  | sbrk p n =>
    have hp : (s.vm.pt p).state = .RUNNABLE := hp.1
    simp only [Sys.call, if_pos hp] at hcall
    exact sbrk_sound h.1 hp hg hcall

theorem inCall_live {k : Kind} (hp : s.inCall p k = true) : (s.vm.pt p).state.live = true := by
  obtain ⟨c, hc, -⟩ := (Option.any_eq_true _ _).1 hp
  exact h.2.live p c hc

theorem step_inv {a : Op} (hg : Careful s a) (hs : s.step L a = some s') : CallInv L U s' := by
  cases a with
  | base a =>
    simp only [Calls.step, Option.ite_none_right_eq_some, Option.map_eq_some_iff] at hs
    obtain ⟨hp, vm, hvm, rfl⟩ := hs
    exact base_inv h hg hp hvm
  | exit p =>
    simp only [Calls.step, Option.ite_none_right_eq_some, Option.map_eq_some_iff] at hs
    obtain ⟨hp, vm, hvm, rfl⟩ := hs
    exact h.of_idle hp (exit_sound h.1 hp.1 hvm)
  | wait p =>
    simp only [Calls.step, Option.ite_none_right_eq_some, Option.map_eq_some_iff] at hs
    obtain ⟨hp, vm, hvm, rfl⟩ := hs
    exact h.of_idle hp (wait_sound h.1 hg (settled_eq_some hvm))
  | enter p k args =>
    simp only [Calls.step, Option.ite_none_right_eq_some] at hs
    obtain ⟨hp, hs⟩ := hs
    split at hs
    · cases hs
      exact h
    rename_i ranges hr
    cases hs
    have hpl := live_of_runnable hp.1
    refine ⟨h.1, ?_, ?_⟩
    · intro q c hc
      by_cases e : q = p
      · rw [e]
        exact hpl
      · exact h.2.live q c (by simpa [Calls.setPending, e] using hc)
    intro q c r hc hmem
    by_cases e : q = p
    · simp only [Calls.setPending, e, update_self, Option.some.injEq] at hc
      subst hc
      rw [e]
      exact checks_below (h.1.size p hpl) hr r hmem
    · exact h.2.below q c r (by simpa [Calls.setPending, e] using hc) hmem
  | join p =>
    simp only [Calls.step, Option.ite_none_right_eq_some, Option.map_eq_some_iff] at hs
    obtain ⟨-, vm, hvm, rfl⟩ := hs
    exact h.of_done (join_sound h.1 (settled_eq_some hvm))
  | exec p tops e =>
    simp only [Calls.step, Option.ite_none_right_eq_some, Option.map_eq_some_iff] at hs
    obtain ⟨hp, vm, hvm, rfl⟩ := hs
    apply h.of_done
    apply exec_sound h.1 (inCall_live h hp) ?_ (settled_eq_some hvm)
    rintro rfl
    exact hg
  | ret p =>
    simp only [Calls.step, Option.ite_none_right_eq_some, Option.some.injEq] at hs
    obtain ⟨-, rfl⟩ := hs
    exact h.of_done ⟨h.1, .of_frame fun _ _ => rfl⟩

end

/-- **User pointers stay valid, and what it takes.** In every run in which `sbrk` moves over no page that another
thread counts as its own, and in which `exec` and `wait` free a page directory only when nobody else has it, every
address of every range that a call was given lies on a page that is present, for as long as the call lasts. -/
theorem pointers_valid (h : (callMachine L U).ReachBy Careful s) {p : Slot} {c : Pending}
    (hc : s.pending p = some c) :
    ∃ pgd, s.vm.dirs (s.vm.pt p).pgdir = some pgd ∧
      ∀ r ∈ c.ranges, ∀ a, r.lo ≤ a → a < r.hi → present pgd (a / 4096) = true := by
  have hinv : CallInv L U s := by
    apply h.inv (I := CallInv L U)
    · rintro s ⟨hs, -, hnone⟩
      refine ⟨hs, ?_, ?_⟩ <;> intro q c <;> simp [hnone]
    · intro s a t hs hg ht
      exact step_inv hs hg ht
  have hpl := hinv.2.live p c hc
  obtain ⟨pgd, hpgd⟩ := Option.isSome_iff_exists.1 (hinv.1.dir p (hasDir_of_live hpl))
  refine ⟨pgd, hpgd, ?_⟩
  intro r hr a _ ha
  apply hinv.1.covers p pgd hpl hpgd
  have := hinv.2.below p c r hc hr
  simp only [pageCount]
  omega

end Run

/-! ### Two threads -/

def smallCalls : Calls := ⟨small, fun _ => none⟩

theorem smallCalls_init : (callMachine smallLayout {f | f ∈ smallPages}).init smallCalls := by
  have hlive : ∀ q, hasDir (small.pt q).state = true → q = 0 := by decide
  have hgood := small_init.1
  refine ⟨⟨hgood.usable, hgood.split, hgood.unused, ?_, fun p hp => hgood.sized.size p hp, ?_⟩, ⟨0, hlive⟩, fun _ => rfl⟩
  · intro p hp
    rw [show p = 0 from hlive p hp]
    rfl
  intro p pgd hp hpgd w hw
  obtain ⟨pgd', hpgd', hm⟩ := hgood.sized.maps p hp
  have heq : pgd = pgd' := Option.some.inj (hpgd.symm.trans hpgd')
  rw [heq]
  exact (hm w (Nat.lt_of_lt_of_le hw (pageCount_le_upages (hgood.sized.size p hp).le))).2 hw

/-- One thread waits in `join` with a pointer to its second page; the other grows the space and exits. -/
theorem pointers_valid_join : ∃ s, (callMachine smallLayout {f | f ∈ smallPages}).ReachBy Careful s ∧
    s.vm.pt.zombieThread 0 = some 1 ∧ ∃ c, s.pending 0 = some c ∧ c.ranges = [⟨4096, 4100⟩] ∧
      ∃ pgd, s.vm.dirs (s.vm.pt 0).pgdir = some pgd ∧ present pgd 1 = true := by
  obtain ⟨s, hs, hp⟩ := Machine.exists_reachBy (G := Careful) smallCalls_init
    [.base (.sbrk 0 8192), .base (.clone 0 4096), .enter 0 .join [.ptr 4096 4], .base (.sbrk 1 4096), .exit 1]
    (fun s => s.vm.pt.zombieThread 0 = some 1 ∧ (s.pending 0).any fun c => c.ranges = [⟨4096, 4100⟩])
    (by decide +kernel)
  obtain ⟨hz, hc⟩ := of_decide_eq_true hp
  obtain ⟨c, hc, hr⟩ := (Option.any_eq_true _ _).1 hc
  have hr := of_decide_eq_true hr
  obtain ⟨pgd, hpgd, hpres⟩ := pointers_valid hs hc
  exact ⟨s, hs, hz, c, hc, hr, pgd, hpgd, hpres ⟨4096, 4100⟩ (by simp [hr]) 4096 (by decide) (by decide)⟩

/-- The other thread shrinks the space and exits: `join` now stores through a pointer to a page that is gone. -/
theorem pointers_dangle : ∃ s, (callMachine smallLayout {f | f ∈ smallPages}).Reach s ∧
    s.vm.pt.zombieThread 0 = some 1 ∧ ∃ c, s.pending 0 = some c ∧ c.kind = .join ∧ c.ranges = [⟨4096, 4100⟩] ∧
      ∃ pgd, s.vm.dirs (s.vm.pt 0).pgdir = some pgd ∧ present pgd 1 = false := by
  obtain ⟨s, hs, hp⟩ := Machine.exists_reachBy (G := fun _ _ => True) smallCalls_init
    [.base (.sbrk 0 8192), .base (.clone 0 4096), .enter 0 .join [.ptr 4096 4], .base (.sbrk 1 (-4096)), .exit 1]
    (fun s => s.vm.pt.zombieThread 0 = some 1 ∧
      ((s.pending 0).any fun c => c.kind = .join ∧ c.ranges = [⟨4096, 4100⟩]) ∧
      (s.vm.dirs (s.vm.pt 0).pgdir).any fun pgd => !present pgd 1) (by decide +kernel)
  obtain ⟨hz, hc, hd⟩ := of_decide_eq_true hp
  obtain ⟨c, hc, hr⟩ := (Option.any_eq_true _ _).1 hc
  obtain ⟨hkind, hr⟩ := of_decide_eq_true hr
  obtain ⟨pgd, hpgd, hnp⟩ := (Option.any_eq_true _ _).1 hd
  exact ⟨s, hs, hz, c, hc, hkind, hr, pgd, hpgd, by simpa using hnp⟩

end Xv6.Vm
