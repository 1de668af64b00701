import Xv6Threading.Lib.Machine

/-!
# Data under a spin lock (`spinlock.c:24-68`, `proc.c:539-619`)

Calls of any shape on data `D`, all under one spin lock `lk`. In between they may `wakeup` and `sleep` on any
channel; at the end they release `lk` and return. Pipes, the console and the disk driver are such code.

| here | there |
| --- | --- |
| `Guarded.start`, `enter` | the arguments of a call, and what it does before `acquire(lk)` |
| `Guarded.code` | the next statement under `lk`; the flag is `myproc()->killed` |
| `Guarded.finish` | history, written when a call returns |
| `Guarded.device` | what happens to the data outside the kernel |
| `Phase.wakeAcquire` .. `wakeRelease` | `wakeup` (`proc.c:590-596`) |
| `Phase.sleepAcquire` .. `sleepRelease2` | `sleep`, statement by statement (`proc.c:556-573`) |
| `Label.kill` | `kill` (`proc.c:601-619`), all under `ptable.lock` |

Spinning, and not being run, is that there is no step.

`Sound` has the conditions, one for each kind of statement, under which annotations of the code are true in every
run (`Sound.inv`): `J` when nobody has `lk`, `At l` when the holder of `lk` is at `l`. A process sleeps on a channel
only when `cond` of it holds; while the holder of `lk` is at `l`, only when `Wait l` of it does. So a change that makes
`cond` false has to be followed by a `wakeup`. A call may own a token, which no other call then has.
-/

namespace Xv6

open Function

/-- What the holder of the lock does next. -/
inductive Effect (L D X R : Type) where
  | go (d : D) (l : L)
  | wakeup (ch : X) (l : L)
  | sleep (ch : X) (l : L)
  | done (r : R)

structure Guarded (ι L D X R W : Type) where
  start : ι → L
  enter : ι → D → Option D
  code : L → Bool → D → Effect L D X R
  finish : R → D → D
  device : W → D → Option D

namespace Guarded

/-- What the process executes next. -/
inductive Phase (L X : Type) where
  | out
  | entry (l : L)
  | inside (l : L)
  | wakeAcquire (ch : X) (l : L)
  | wakeScan (ch : X) (l : L)
  | wakeRelease (l : L)
  | sleepAcquire (ch : X) (l : L)
  | sleepRelease (ch : X) (l : L)
  | sleepState (ch : X) (l : L)
  | asleep (ch : X) (l : L)
  | roused (l : L)
  | tidy (l : L)
deriving DecidableEq

namespace Phase

variable {L X : Type}

def holdsLk : Phase L X → Bool
  | .inside _ | .wakeAcquire _ _ | .wakeScan _ _ | .wakeRelease _ | .sleepAcquire _ _ | .sleepRelease _ _ => true
  | _ => false

def holdsPtable : Phase L X → Bool
  | .wakeScan _ _ | .wakeRelease _ | .sleepRelease _ _ | .sleepState _ _ | .tidy _ => true
  | _ => false

/-- It has given `lk` up to sleep on the channel and has not been woken. -/
def awaits : Phase L X → Option X
  | .sleepState ch _ | .asleep ch _ => some ch
  | _ => none

def loc : Phase L X → Option L
  | .out => none
  | .entry l | .inside l | .wakeAcquire _ l | .wakeScan _ l | .wakeRelease l | .sleepAcquire _ l | .sleepRelease _ l
  | .sleepState _ l | .asleep _ l | .roused l | .tidy l => some l

/-- A process that is `SLEEPING` on the channel becomes `RUNNABLE`. -/
def rouse [DecidableEq X] (ch : X) : Phase L X → Phase L X
  | .asleep ch' l => if ch' = ch then .roused l else .asleep ch' l
  | n => n

section

variable (ch : X) (n : Phase L X)
include ch n

theorem rouse_cases [DecidableEq X] : n.rouse ch = n ∨ ∃ l, n = .asleep ch l ∧ n.rouse ch = .roused l := by
  cases n with
  | asleep ch' l =>
    by_cases h : ch' = ch
    · subst h
      exact .inr ⟨l, rfl, if_pos rfl⟩
    · exact .inl (if_neg h)
  | _ => exact .inl rfl

@[simp] theorem holdsLk_rouse [DecidableEq X] : (n.rouse ch).holdsLk = n.holdsLk := by
  obtain h | ⟨l, rfl, h⟩ := rouse_cases ch n
  · rw [h]
  · rw [h]
    rfl

@[simp] theorem holdsPtable_rouse [DecidableEq X] : (n.rouse ch).holdsPtable = n.holdsPtable := by
  obtain h | ⟨l, rfl, h⟩ := rouse_cases ch n
  · rw [h]
  · rw [h]
    rfl

@[simp] theorem loc_rouse [DecidableEq X] : (n.rouse ch).loc = n.loc := by
  obtain h | ⟨l, rfl, h⟩ := rouse_cases ch n
  · rw [h]
  · rw [h]
    rfl

end

/-- Who still awaits something is not asleep on the channel. -/
theorem awaits_rouse [DecidableEq X] {ch ch' : X} {n : Phase L X} (h : (n.rouse ch).awaits = some ch') :
    n.awaits = some ch' ∧ (n.holdsPtable = false → ch' ≠ ch) := by
  cases n with
  | asleep c l =>
    rw [rouse] at h
    split at h
    · cases h
    · obtain rfl := Option.some.inj h
      exact ⟨rfl, fun _ => ‹_›⟩
  | sleepState c l => exact ⟨h, fun hp => nomatch hp⟩
  | _ => cases h

end Phase

structure Sys (T L D X : Type) where
  data : D
  lk : Option T
  ptable : Option T
  killed : T → Bool
  phase : T → Phase L X

inductive Label (ι T W : Type) where
  | call (t : T) (i : ι)
  | go (t : T)
  | kill (t : T)
  | device (w : W)

section

variable {ι T L D X R W : Type} [DecidableEq T] [DecidableEq X] (G : Guarded ι L D X R W)

namespace Sys

variable (s : Sys T L D X)

def setPhase (t : T) (n : Phase L X) : Sys T L D X := { s with phase := update s.phase t n }

/-- `acquire(&ptable.lock)` of `t`, which goes on at `n`. -/
def acquirePtable (t : T) (n : Phase L X) : Option (Sys T L D X) :=
  if s.ptable = none then some ({ s with ptable := some t }.setPhase t n) else none

def acquireLk (t : T) (n : Phase L X) : Option (Sys T L D X) :=
  if s.lk = none then some ({ s with lk := some t }.setPhase t n) else none

def effect (t : T) : Effect L D X R → Sys T L D X
  | .go d l => { s with data := d }.setPhase t (.inside l)
  | .wakeup ch l => s.setPhase t (.wakeAcquire ch l)
  | .sleep ch l => s.setPhase t (.sleepAcquire ch l)
  | .done r => { s with data := G.finish r s.data, lk := none }.setPhase t .out

/-- `wakeup1` (`proc.c:580-587`). -/
def wakeup1 (ch : X) : Sys T L D X := { s with phase := fun q => (s.phase q).rouse ch }

def go (t : T) : Option (Sys T L D X) :=
  match s.phase t with
  | .out | .asleep _ _ => none
  | .entry l => s.acquireLk t (.inside l)
  | .inside l => some (s.effect G t (G.code l (s.killed t) s.data))
  | .wakeAcquire ch l => s.acquirePtable t (.wakeScan ch l)
  | .wakeScan ch l => some ((s.wakeup1 ch).setPhase t (.wakeRelease l))
  | .wakeRelease l => some ({ s with ptable := none }.setPhase t (.inside l))
  | .sleepAcquire ch l => s.acquirePtable t (.sleepRelease ch l)
  | .sleepRelease ch l => some ({ s with lk := none }.setPhase t (.sleepState ch l))
  -- back in the scheduler, which lets ptable.lock go
  | .sleepState ch l => some ({ s with ptable := none }.setPhase t (.asleep ch l))
  -- the scheduler takes ptable.lock and switches to the process
  | .roused l => s.acquirePtable t (.tidy l)
  | .tidy l => some ({ s with ptable := none }.setPhase t (.entry l))

def call (t : T) (i : ι) : Option (Sys T L D X) :=
  match s.phase t with
  | .out => (G.enter i s.data).map fun d => { s with data := d }.setPhase t (.entry (G.start i))
  | _ => none

def kill (t : T) : Option (Sys T L D X) :=
  if s.ptable = none then
    let s' : Sys T L D X := { s with killed := update s.killed t true }
    match s.phase t with
    | .asleep _ l => some (s'.setPhase t (.roused l))
    | _ => some s'
  else none

def step (s : Sys T L D X) : Label ι T W → Option (Sys T L D X)
  | .call t i => s.call G t i
  | .go t => s.go G t
  | .kill t => s.kill t
  | .device w => (G.device w s.data).map fun d => { s with data := d }

omit [DecidableEq T] [DecidableEq X] in
/-- Nobody is in a call. -/
def boot (d : D) : Sys T L D X where
  data := d
  lk := none
  ptable := none
  killed _ := false
  phase _ := .out

end Sys

/-- The calls of `G` on data that is `d` at first. -/
def machine (T : Type) [DecidableEq T] (d : D) : Machine (Sys T L D X) (Label ι T W) where
  init s := s = .boot d
  step s a := s.step G a

/-- The statements that are executed under the lock all meet `P`. -/
def Only (P : L → Bool → D → Prop) (s : Sys T L D X) : Label ι T W → Prop
  | .go t => ∀ l, s.phase t = .inside l → P l (s.killed t) s.data
  | _ => True

end

/-! ## Annotations -/

/-- What is claimed of the data at each place, and of the sleepers. -/
structure Notes (L D X K : Type) where
  J : D → Prop
  cond : X → D → Prop
  At : L → D → Prop
  Wait : L → X → D → Prop
  /-- The token of a call at `l`, and what is true for it as long as it does not have the lock. -/
  tok : L → Option K
  Own : L → D → Prop

section

variable {ι T L D X R W K : Type} (G : Guarded ι L D X R W) (N : Notes L D X K)

/-- A call may go on at `l` when it has got the lock. -/
def Notes.Entry (l : L) : Prop :=
  ∀ d, N.J d → N.Own l d → N.At l d ∧ ∀ ch, N.cond ch d → N.Wait l ch d

/-- All that is claimed of `d` is true of `d'`, to which it changes behind the backs of the calls. -/
structure Notes.Stable (d d' : D) : Prop where
  J : N.J d → N.J d'
  cond : ∀ ch, N.J d → N.cond ch d → N.cond ch d'
  At : ∀ l, N.At l d → N.At l d'
  Wait : ∀ l ch, N.At l d → N.Wait l ch d → N.Wait l ch d'
  Own : ∀ l, N.Own l d → N.Own l d'

/-- What every annotation has in common. -/
def Notes.Known (d : D) : Prop := N.J d ∨ ∃ l, N.At l d

/-- Calls with other tokens than that of `l` keep what they own. -/
def Notes.Keeps (l : L) (d d' : D) : Prop := ∀ m, (∀ k, N.tok m = some k → N.tok l ≠ some k) → N.Own m d → N.Own m d'

/-- The token stays, or is given up. -/
def Notes.Hands (l l' : L) : Prop := ∀ k, N.tok l' = some k → N.tok l = some k

/-- After the statement at `l`. -/
def Notes.After (l : L) (d : D) : Effect L D X R → Prop
  | .go d' l' => N.At l' d' ∧ (∀ ch, N.Wait l ch d → N.Wait l' ch d') ∧ N.Hands l l' ∧ N.Keeps l d d'
  | .wakeup ch l' => N.At l' d ∧ (∀ ch', ch' ≠ ch → N.Wait l ch' d → N.Wait l' ch' d) ∧ N.Hands l l'
  | .sleep ch l' =>
    N.J d ∧ N.cond ch d ∧ (∀ ch', N.Wait l ch' d → N.cond ch' d) ∧ N.Hands l l' ∧ N.Own l' d ∧ N.Entry l'
  | .done r => N.J (G.finish r d) ∧ (∀ ch, N.Wait l ch d → N.cond ch (G.finish r d)) ∧ N.Keeps l d (G.finish r d)

/-- The annotations hold in every run whose statements under the lock meet `P`. -/
structure Sound (P : L → Bool → D → Prop) : Prop where
  code : ∀ l b d, P l b d → N.At l d → N.After G l d (G.code l b d)
  start : ∀ i, N.Entry (G.start i)
  enter : ∀ i d d', N.Known d → G.enter i d = some d' → N.Stable d d' ∧ N.Own (G.start i) d' ∧
    ∀ k, N.tok (G.start i) = some k → ∀ m, N.tok m = some k → ¬ N.Own m d ∧ ¬ N.At m d
  device : ∀ w d d', N.Known d → G.device w d = some d' → N.Stable d d'

/-- What holds when a process is at `n`. -/
def Notes.Place (d : D) : Phase L X → Prop
  | .out => True
  | .entry l | .sleepState _ l | .asleep _ l | .roused l | .tidy l => N.Entry l ∧ N.Own l d
  | .inside l | .wakeAcquire _ l | .wakeScan _ l | .wakeRelease l => N.At l d
  | .sleepAcquire ch l | .sleepRelease ch l => N.J d ∧ N.cond ch d ∧ N.Entry l ∧ N.Own l d

/-- What holds of a sleeper's channel when the holder of the lock is at `n`. -/
def Notes.Lets (d : D) (ch : X) : Phase L X → Prop
  | .inside l | .wakeRelease l => N.Wait l ch d
  | .wakeAcquire ch' l | .wakeScan ch' l => ch ≠ ch' → N.Wait l ch d
  | _ => N.cond ch d

def Notes.token (n : Phase L X) : Option K := n.loc.bind N.tok

structure Inv (s : Sys T L D X) : Prop where
  lk : ∀ t, s.lk = some t ↔ (s.phase t).holdsLk = true
  ptable : ∀ t, s.ptable = some t ↔ (s.phase t).holdsPtable = true
  place : ∀ t, N.Place s.data (s.phase t)
  apart : ∀ t u k, t ≠ u → N.token (s.phase t) = some k → N.token (s.phase u) ≠ some k
  free : s.lk = none → N.J s.data ∧ ∀ t ch, (s.phase t).awaits = some ch → N.cond ch s.data
  held : ∀ u t ch, s.lk = some u → (s.phase t).awaits = some ch → N.Lets s.data ch (s.phase u)

variable {G N} {s : Sys T L D X} {d : D} {t : T} {n : Phase L X}

/-- Who does not have the lock keeps what it owns. -/
theorem Notes.Place.keep (h : N.Place s.data n) (hlk : n.holdsLk = false)
    (hkeep : ∀ l, n.loc = some l → N.Own l s.data → N.Own l d) : N.Place d n := by
  cases n with
  | out => trivial
  | entry l | sleepState ch l | asleep ch l | roused l | tidy l => exact ⟨h.1, hkeep l rfl h.2⟩
  | inside l | wakeAcquire ch l | wakeScan ch l | wakeRelease l | sleepAcquire ch l | sleepRelease ch l => cases hlk

theorem Inv.others (h : Inv N s) (ht : (s.phase t).holdsLk = true) (u : T) (hu : u ≠ t) :
    (s.phase u).holdsLk = false := by
  have hlk := (h.lk t).2 ht
  have hno := h.lk u
  simpa [hlk, Ne.symm hu] using hno

variable [DecidableEq T]

section

variable (h : Inv N s)
include h

/-- Tokens only get fewer. -/
theorem Inv.apart_update (htok : ∀ k, N.token n = some k → N.token (s.phase t) = some k) (u v : T) (k : K)
    (huv : u ≠ v) (hu : N.token (update s.phase t n u) = some k) : N.token (update s.phase t n v) ≠ some k := by
  have htoks : ∀ u k, N.token (update s.phase t n u) = some k → N.token (s.phase u) = some k :=
    (forall_update_iff s.phase fun u m => ∀ k, N.token m = some k → N.token (s.phase u) = some k).2
      ⟨htok, fun _ _ _ => id⟩
  exact fun hv => h.apart u v k huv (htoks u k hu) (htoks v k hv)

/-- `t` goes from one place to another; it has `lk` before if and only if it has it after. -/
theorem Inv.move {p : Option T} (hlk : n.holdsLk = (s.phase t).holdsLk)
    (hpt : ∀ u, p = some u ↔ (update s.phase t n u).holdsPtable = true) (hplace : N.Place s.data n)
    (htok : ∀ k, N.token n = some k → N.token (s.phase t) = some k)
    (haw : ∀ ch, n.awaits = some ch → (s.phase t).awaits = some ch)
    (hlets : n.holdsLk = true → ∀ ch, N.Lets s.data ch (s.phase t) → N.Lets s.data ch n) :
    Inv N ({ s with ptable := p }.setPhase t n) := by
  have haws : ∀ u ch, (update s.phase t n u).awaits = some ch → (s.phase u).awaits = some ch :=
    (forall_update_iff s.phase fun u m => ∀ ch, m.awaits = some ch → (s.phase u).awaits = some ch).2
      ⟨haw, fun _ _ _ => id⟩
  refine ⟨?_, hpt, ?_, h.apart_update htok, ?_, ?_⟩
  · refine (forall_update_iff s.phase fun u m => s.lk = some u ↔ m.holdsLk = true).2 ⟨?_, fun u _ => h.lk u⟩
    rw [hlk]
    exact h.lk t
  · exact (forall_update_iff s.phase fun _ m => N.Place s.data m).2 ⟨hplace, fun u _ => h.place u⟩
  · exact fun hfree => ⟨(h.free hfree).1, fun u ch hu => (h.free hfree).2 u ch (haws u ch hu)⟩
  intro u v ch hu hv
  have hold := h.held u v ch hu (haws v ch hv)
  show N.Lets s.data ch (update s.phase t n u)
  by_cases hut : u = t
  · subst hut
    rw [update_self]
    exact hlets (hlk.trans ((h.lk u).1 hu)) ch hold
  · rwa [update_of_ne hut]

theorem Inv.ptable_same (hn : n.holdsPtable = (s.phase t).holdsPtable) :
    ∀ u, s.ptable = some u ↔ (update s.phase t n u).holdsPtable = true := by
  refine (forall_update_iff s.phase fun u m => s.ptable = some u ↔ m.holdsPtable = true).2
    ⟨?_, fun u _ => h.ptable u⟩
  rw [hn]
  exact h.ptable t

theorem Inv.ptable_acquire (hfree : s.ptable = none) (hn : n.holdsPtable = true) :
    ∀ u, some t = some u ↔ (update s.phase t n u).holdsPtable = true := by
  refine (forall_update_iff s.phase fun u m => some t = some u ↔ m.holdsPtable = true).2 ⟨by simp [hn], ?_⟩
  intro u hu
  have hno := h.ptable u
  simp only [hfree, reduceCtorEq, false_iff] at hno
  simp [hno, Ne.symm hu]

theorem Inv.ptable_release (ht : (s.phase t).holdsPtable = true) (hn : n.holdsPtable = false) :
    ∀ u, none = some u ↔ (update s.phase t n u).holdsPtable = true := by
  refine (forall_update_iff s.phase fun u m => none = some u ↔ m.holdsPtable = true).2 ⟨by simp [hn], ?_⟩
  intro u hu
  have hown := (h.ptable t).2 ht
  have hno := h.ptable u
  simp only [hown, Option.some.injEq, Ne.symm hu, false_iff] at hno
  simp [hno]

theorem Inv.acquirePtable {s' : Sys T L D X} (hs : s.acquirePtable t n = some s')
    (hn : n.holdsPtable = true) (hlk : n.holdsLk = (s.phase t).holdsLk) (hplace : N.Place s.data n)
    (hloc : n.loc = (s.phase t).loc) (haw : n.awaits = none)
    (hlets : ∀ ch, N.Lets s.data ch (s.phase t) → N.Lets s.data ch n) : Inv N s' := by
  unfold Sys.acquirePtable at hs
  split at hs
  · obtain rfl := Option.some.inj hs
    refine h.move hlk (h.ptable_acquire ‹_› hn) hplace ?_ (by simp [haw]) fun _ => hlets
    rw [Notes.token, Notes.token, hloc]
    exact fun _ => id
  · cases hs

/-- The lock is taken. -/
theorem Inv.enter {l : L} (hfree : s.lk = none) (ht : s.phase t = .entry l) :
    Inv N ({ s with lk := some t }.setPhase t (.inside l)) := by
  obtain ⟨hJ, hcond⟩ := h.free hfree
  have hplace := h.place t
  rw [ht] at hplace
  obtain ⟨hat, hwait⟩ := hplace.1 s.data hJ hplace.2
  have haw : ∀ u ch, (update s.phase t (.inside l) u).awaits = some ch → (s.phase u).awaits = some ch :=
    (forall_update_iff s.phase fun u m => ∀ ch, m.awaits = some ch → (s.phase u).awaits = some ch).2
      ⟨nofun, fun _ _ _ => id⟩
  refine ⟨?_, ?_, ?_, ?_, nofun, ?_⟩
  · refine (forall_update_iff s.phase fun u m => some t = some u ↔ m.holdsLk = true).2
      ⟨by simp [Phase.holdsLk], ?_⟩
    intro u hu
    have hno := h.lk u
    simp only [hfree, reduceCtorEq, false_iff] at hno
    simp [hno, Ne.symm hu]
  · refine h.ptable_same ?_
    rw [ht]
    rfl
  · exact (forall_update_iff s.phase fun _ m => N.Place s.data m).2 ⟨hat, fun u _ => h.place u⟩
  · refine h.apart_update ?_
    rw [ht]
    exact fun _ => id
  · intro u v ch hu hv
    obtain rfl := Option.some.inj hu
    show N.Lets s.data ch (update s.phase t (.inside l) t)
    rw [update_self]
    exact hwait ch (hcond v ch (haw v ch hv))

/-- The holder of the lock gives it up, the data being `d` then. -/
theorem Inv.leave {l : L} (hl : (s.phase t).loc = some l) (ht : (s.phase t).holdsLk = true) (hn : n.holdsLk = false)
    (hpt : n.holdsPtable = (s.phase t).holdsPtable) (hplace : N.Place d n)
    (htok : ∀ k, N.token n = some k → N.token (s.phase t) = some k) (hJ : N.J d)
    (hcond : ∀ ch, N.Lets s.data ch (s.phase t) ∨ n.awaits = some ch → N.cond ch d)
    (hkeep : N.Keeps l s.data d) : Inv N ({ s with data := d, lk := none }.setPhase t n) := by
  have hlk := (h.lk t).2 ht
  have hother := h.others ht
  refine ⟨?_, h.ptable_same hpt, ?_, h.apart_update htok, ?_, nofun⟩
  · refine (forall_update_iff s.phase fun u m => none = some u ↔ m.holdsLk = true).2 ⟨by simp [hn], ?_⟩
    exact fun u hu => by simp [hother u hu]
  · refine (forall_update_iff s.phase fun _ m => N.Place d m).2 ⟨hplace, fun u hu => ?_⟩
    refine (h.place u).keep (hother u hu) fun m hm => hkeep m fun k hk hkl => h.apart u t k hu ?_ ?_
    · rw [Notes.token, hm]
      exact hk
    · rw [Notes.token, hl]
      exact hkl
  · refine fun _ => ⟨hJ, (forall_update_iff s.phase fun _ m => ∀ ch, m.awaits = some ch → N.cond ch d).2 ⟨?_, ?_⟩⟩
    · exact fun ch hch => hcond ch (.inr hch)
    · exact fun u _ ch hch => hcond ch (.inl (h.held t u ch hlk hch))

/-- The holder of the lock changes the data. -/
theorem Inv.change {l l' : L} (ht : s.phase t = .inside l) (hat : N.At l' d)
    (hwait : ∀ ch, N.Wait l ch s.data → N.Wait l' ch d) (htok : N.Hands l l') (hkeep : N.Keeps l s.data d) :
    Inv N ({ s with data := d }.setPhase t (.inside l')) := by
  have hholds : (s.phase t).holdsLk = true := by rw [ht]; rfl
  have hlk : s.lk = some t := (h.lk t).2 hholds
  refine ⟨?_, ?_, ?_, ?_, ?_, ?_⟩
  · refine (forall_update_iff s.phase fun u m => s.lk = some u ↔ m.holdsLk = true).2 ⟨?_, fun u _ => h.lk u⟩
    simp [hlk, Phase.holdsLk]
  · refine h.ptable_same ?_
    rw [ht]
    rfl
  · refine (forall_update_iff s.phase fun _ m => N.Place d m).2 ⟨hat, fun u hu => ?_⟩
    refine (h.place u).keep (h.others hholds u hu) fun m hm => hkeep m fun k hk hl => h.apart u t k hu ?_ ?_
    · rw [Notes.token, hm]
      exact hk
    · rw [ht]
      exact hl
  · refine h.apart_update ?_
    rw [ht]
    exact htok
  · intro hfree
    exact absurd (hlk.symm.trans hfree) (by simp)
  intro u v ch hu hv
  obtain rfl : t = u := Option.some.inj (hlk.symm.trans hu)
  show N.Lets d ch (update s.phase t (.inside l') t)
  rw [update_self]
  have hlets : ∀ v ch, (update s.phase t (.inside l') v).awaits = some ch → N.Wait l ch s.data := by
    refine (forall_update_iff s.phase fun _ m => ∀ ch, m.awaits = some ch → N.Wait l ch s.data).2 ⟨nofun, ?_⟩
    intro v _ ch hv
    have hold := h.held t v ch hlk hv
    rwa [ht] at hold
  exact hwait ch (hlets v ch hv)

end

omit [DecidableEq T] in
/-- The data changes behind the backs of the calls. -/
theorem Inv.stable (h : Inv N s) (hd : N.Stable s.data d) : Inv N { s with data := d } := by
  refine ⟨h.lk, h.ptable, ?_, h.apart, ?_, ?_⟩
  · intro u
    have hp := h.place u
    show N.Place d (s.phase u)
    cases hphase : s.phase u <;> rw [hphase] at hp
    case out => trivial
    case entry | sleepState | asleep | roused | tidy => exact ⟨hp.1, hd.Own _ hp.2⟩
    case inside | wakeAcquire | wakeScan | wakeRelease => exact hd.At _ hp
    case sleepAcquire | sleepRelease => exact ⟨hd.J hp.1, hd.cond _ hp.1 hp.2.1, hp.2.2.1, hd.Own _ hp.2.2.2⟩
  · intro hfree
    obtain ⟨hJ, hcond⟩ := h.free hfree
    exact ⟨hd.J hJ, fun u ch hu => hd.cond ch hJ (hcond u ch hu)⟩
  intro u v ch hu hv
  have hl := h.held u v ch hu hv
  have hp := h.place u
  have hlk := (h.lk u).1 hu
  show N.Lets d ch (s.phase u)
  cases hphase : s.phase u <;> rw [hphase] at hl hp hlk
  case out | entry | sleepState | asleep | roused | tidy => cases hlk
  case inside | wakeRelease => exact hd.Wait _ _ hp hl
  case wakeAcquire | wakeScan => exact fun hne => hd.Wait _ _ hp (hl hne)
  case sleepAcquire | sleepRelease => exact hd.cond _ hp.1 hl

variable [DecidableEq X] {P : L → Bool → D → Prop} {s' : Sys T L D X} {l : L}

/-- `wakeup1`: `ptable.lock` is held, so nobody is on the way to sleep. -/
theorem Inv.wakeup1 {ch : X} (h : Inv N s) (ht : s.phase t = .wakeScan ch l) :
    Inv N ((s.wakeup1 ch).setPhase t (.wakeRelease l)) := by
  have hlk : s.lk = some t := (h.lk t).2 (by rw [ht]; rfl)
  have hpt : s.ptable = some t := (h.ptable t).2 (by rw [ht]; rfl)
  have hat := h.place t
  rw [ht] at hat
  let ph : T → Phase L X := fun q => (s.phase q).rouse ch
  have htok : ∀ u k, N.token (update ph t (.wakeRelease l) u) = some k → N.token (s.phase u) = some k := by
    refine (forall_update_iff ph fun u m => ∀ k, N.token m = some k → N.token (s.phase u) = some k).2 ⟨?_, ?_⟩
    · rw [ht]
      exact fun _ => id
    · intro u _ k hk
      rwa [Notes.token, Phase.loc_rouse, ← Notes.token] at hk
  refine ⟨?_, ?_, ?_, ?_, ?_, ?_⟩
  · refine (forall_update_iff ph fun u m => s.lk = some u ↔ m.holdsLk = true).2 ⟨?_, fun u _ => ?_⟩
    · simp [hlk, Phase.holdsLk]
    · rw [Phase.holdsLk_rouse]
      exact h.lk u
  · refine (forall_update_iff ph fun u m => s.ptable = some u ↔ m.holdsPtable = true).2 ⟨?_, fun u _ => ?_⟩
    · simp [hpt, Phase.holdsPtable]
    · rw [Phase.holdsPtable_rouse]
      exact h.ptable u
  · refine (forall_update_iff ph fun _ m => N.Place s.data m).2 ⟨hat, fun u _ => ?_⟩
    have hp := h.place u
    show N.Place s.data ((s.phase u).rouse ch)
    obtain heq | ⟨m, hm, heq⟩ := Phase.rouse_cases ch (s.phase u)
    · rwa [heq]
    · rw [heq]
      rwa [hm] at hp
  · exact fun u v k huv hu hv => h.apart u v k huv (htok u k hu) (htok v k hv)
  · intro hfree
    exact absurd (hlk.symm.trans hfree) (by simp)
  intro u v ch' hu hv
  obtain rfl : t = u := Option.some.inj (hlk.symm.trans hu)
  show N.Lets s.data ch' (update ph t (.wakeRelease l) t)
  rw [update_self]
  have hlets : ∀ v ch', (update ph t (.wakeRelease l) v).awaits = some ch' → N.Wait l ch' s.data := by
    refine (forall_update_iff ph fun _ m => ∀ ch', m.awaits = some ch' → N.Wait l ch' s.data).2 ⟨nofun, ?_⟩
    intro v hvt ch' hv
    obtain ⟨haw, hch⟩ := Phase.awaits_rouse hv
    have hvp : (s.phase v).holdsPtable = false := by
      have hno := h.ptable v
      simpa [hpt, Ne.symm hvt] using hno
    have hold := h.held t v ch' hlk haw
    rw [ht] at hold
    exact hold (hch hvp)
  exact hlets v ch' hv

omit [DecidableEq X] in
/-- A statement under the lock. -/
theorem Sound.effect (hG : Sound G N P) (h : Inv N s) (ht : s.phase t = .inside l)
    (hP : P l (s.killed t) s.data) : Inv N (s.effect G t (G.code l (s.killed t) s.data)) := by
  have hat := h.place t
  rw [ht] at hat
  have hafter := hG.code l (s.killed t) s.data hP hat
  have htok : N.token (s.phase t) = N.tok l := by rw [ht]; rfl
  cases hcode : G.code l (s.killed t) s.data with
  | go d l' =>
    rw [hcode] at hafter
    obtain ⟨hat', hwait, hhands, hkeep⟩ := hafter
    exact h.change ht hat' hwait hhands hkeep
  | wakeup ch l' =>
    rw [hcode] at hafter
    obtain ⟨hat', hwait, hhands⟩ := hafter
    refine h.move (p := s.ptable) (by rw [ht]; rfl) (h.ptable_same (by rw [ht]; rfl)) hat' (by rw [htok]; exact hhands)
      nofun fun _ ch' hl => ?_
    rw [ht] at hl
    exact fun hne => hwait ch' hne hl
  | sleep ch l' =>
    rw [hcode] at hafter
    obtain ⟨hJ, hcond, hconds, hhands, hown, hentry⟩ := hafter
    refine h.move (p := s.ptable) (by rw [ht]; rfl) (h.ptable_same (by rw [ht]; rfl)) ⟨hJ, hcond, hentry, hown⟩
      (by rw [htok]; exact hhands) nofun fun _ ch' hl => ?_
    rw [ht] at hl
    exact hconds ch' hl
  | done r =>
    rw [hcode] at hafter
    obtain ⟨hJ, hcond, hkeep⟩ := hafter
    refine h.leave (l := l) (by rw [ht]; rfl) (by rw [ht]; rfl) rfl (by rw [ht]; rfl) trivial nofun hJ ?_ hkeep
    rintro ch (hl | ⟨⟨⟩⟩)
    rw [ht] at hl
    exact hcond ch hl

theorem Sound.go (hG : Sound G N P) (h : Inv N s) (hP : ∀ l, s.phase t = .inside l → P l (s.killed t) s.data)
    (hs : s.go G t = some s') : Inv N s' := by
  unfold Sys.go at hs
  have hplace := h.place t
  split at hs <;> rename_i ht
  · cases hs
  · cases hs
  · -- entry
    unfold Sys.acquireLk at hs
    split at hs
    · obtain rfl := Option.some.inj hs
      exact h.enter ‹_› ht
    · cases hs
  · -- inside
    obtain rfl := Option.some.inj hs
    exact hG.effect h ht (hP _ ht)
  · -- wakeAcquire
    rw [ht] at hplace
    exact h.acquirePtable hs rfl (by rw [ht]; rfl) hplace (by rw [ht]; rfl) rfl (by rw [ht]; exact fun _ => id)
  · -- wakeScan
    obtain rfl := Option.some.inj hs
    exact h.wakeup1 ht
  · -- wakeRelease
    obtain rfl := Option.some.inj hs
    rw [ht] at hplace
    exact h.move (by rw [ht]; rfl) (h.ptable_release (by rw [ht]; rfl) rfl) hplace (by rw [ht]; exact fun _ => id) nofun
      (by rw [ht]; exact fun _ _ => id)
  · -- sleepAcquire
    rw [ht] at hplace
    exact h.acquirePtable hs rfl (by rw [ht]; rfl) hplace (by rw [ht]; rfl) rfl (by rw [ht]; exact fun _ => id)
  · -- sleepRelease
    obtain rfl := Option.some.inj hs
    rw [ht] at hplace
    obtain ⟨hJ, hcond, hentry⟩ := hplace
    refine h.leave (d := s.data) (by rw [ht]; rfl) (by rw [ht]; rfl) rfl (by rw [ht]; rfl) hentry
      (by rw [ht]; exact fun _ => id) hJ ?_ fun _ _ => id
    rintro ch' (hl | hl)
    · rwa [ht] at hl
    · exact Option.some.inj hl ▸ hcond
  · -- sleepState
    obtain rfl := Option.some.inj hs
    rw [ht] at hplace
    exact h.move (by rw [ht]; rfl) (h.ptable_release (by rw [ht]; rfl) rfl) hplace (by rw [ht]; exact fun _ => id)
      (by rw [ht]; exact fun _ => id) nofun
  · -- roused
    rw [ht] at hplace
    exact h.acquirePtable hs rfl (by rw [ht]; rfl) hplace (by rw [ht]; rfl) rfl (by rw [ht]; exact fun _ => id)
  · -- tidy
    obtain rfl := Option.some.inj hs
    rw [ht] at hplace
    exact h.move (by rw [ht]; rfl) (h.ptable_release (by rw [ht]; rfl) rfl) hplace (by rw [ht]; exact fun _ => id) nofun
      nofun

section

omit [DecidableEq T] [DecidableEq X]

/-- What every annotation says of the data holds at all times. -/
theorem Inv.data (h : Inv N s) {I : D → Prop} (hJ : ∀ d, N.J d → I d) (hat : ∀ l d, N.At l d → I d) : I s.data := by
  cases hlk : s.lk with
  | none => exact hJ _ (h.free hlk).1
  | some t =>
    have hp := h.place t
    have ht := (h.lk t).1 hlk
    cases hphase : s.phase t <;> rw [hphase] at hp ht
    case out | entry | sleepState | asleep | roused | tidy => cases ht
    case inside | wakeAcquire | wakeScan | wakeRelease => exact hat _ _ hp
    case sleepAcquire | sleepRelease => exact hJ _ hp.1

theorem Inv.known (h : Inv N s) : N.Known s.data := h.data (fun _ => .inl) fun l _ hat => .inr ⟨l, hat⟩

/-- Nobody has a token that a new call gets. -/
theorem Inv.fresh (h : Inv N s) (hnew : ∀ k, N.tok l = some k → ∀ m, N.tok m = some k → ¬ N.Own m s.data ∧
    ¬ N.At m s.data) (u : T) (k : K) (hu : N.token (s.phase u) = some k) : N.tok l ≠ some k := by
  intro hk
  have hp := h.place u
  cases hphase : s.phase u <;> rw [hphase] at hp hu
  case out => cases hu
  case entry | sleepState | asleep | roused | tidy => exact (hnew k hk _ hu).1 hp.2
  case inside | wakeAcquire | wakeScan | wakeRelease => exact (hnew k hk _ hu).2 hp
  case sleepAcquire | sleepRelease => exact (hnew k hk _ hu).1 hp.2.2.2

end

omit [DecidableEq X] in
theorem Sound.call (hG : Sound G N P) (h : Inv N s) {i : ι} (hs : s.call G t i = some s') : Inv N s' := by
  unfold Sys.call at hs
  split at hs <;> rename_i ht
  case h_2 => cases hs
  obtain ⟨d, hd, rfl⟩ := Option.map_eq_some_iff.1 hs
  obtain ⟨hstable, hown, hnew⟩ := hG.enter i s.data d h.known hd
  have h1 : Inv N { s with data := d } := h.stable hstable
  have hfresh := h.fresh hnew
  have haw : ∀ u ch, (update s.phase t (.entry (G.start i)) u).awaits = some ch → (s.phase u).awaits = some ch :=
    (forall_update_iff s.phase fun u m => ∀ ch, m.awaits = some ch → (s.phase u).awaits = some ch).2
      ⟨nofun, fun _ _ _ => id⟩
  refine ⟨?_, ?_, ?_, ?_, ?_, ?_⟩
  · refine (forall_update_iff s.phase fun u m => s.lk = some u ↔ m.holdsLk = true).2 ⟨?_, fun u _ => h.lk u⟩
    rw [h.lk t, ht]
    exact Iff.rfl
  · refine h1.ptable_same ?_
    show _ = (s.phase t).holdsPtable
    rw [ht]
    rfl
  · exact (forall_update_iff s.phase fun _ m => N.Place d m).2 ⟨⟨hG.start i, hown⟩, fun u _ => h1.place u⟩
  · show ∀ u v k, u ≠ v → N.token (update s.phase t (.entry (G.start i)) u) = some k →
      N.token (update s.phase t (.entry (G.start i)) v) ≠ some k
    intro u v k huv hu hv
    by_cases hut : u = t
    · rw [hut, update_self] at hu
      rw [update_of_ne fun hvt => huv (hut.trans hvt.symm)] at hv
      exact hfresh v k hv hu
    rw [update_of_ne hut] at hu
    by_cases hvt : v = t
    · rw [hvt, update_self] at hv
      exact hfresh u k hu hv
    · rw [update_of_ne hvt] at hv
      exact h.apart u v k huv hu hv
  · exact fun hfree => ⟨(h1.free hfree).1, fun u ch hu => (h1.free hfree).2 u ch (haw u ch hu)⟩
  intro u v ch hu hv
  have hut : u ≠ t := by
    rintro rfl
    have hlk := (h.lk u).1 hu
    rw [ht] at hlk
    cases hlk
  show N.Lets d ch (update s.phase t _ u)
  rw [update_of_ne hut]
  exact h1.held u v ch hu (haw v ch hv)

omit [DecidableEq T] [DecidableEq X] in
theorem Inv.setKilled (h : Inv N s) (f : T → Bool) : Inv N { s with killed := f } :=
  ⟨h.lk, h.ptable, h.place, h.apart, h.free, h.held⟩

omit [DecidableEq X] in
theorem Inv.kill (h : Inv N s) (hs : s.kill t = some s') : Inv N s' := by
  unfold Sys.kill at hs
  split at hs
  case isFalse => cases hs
  dsimp only at hs
  have h1 := h.setKilled (update s.killed t true)
  split at hs <;> rename_i ht
  · obtain rfl := Option.some.inj hs
    have hplace := h.place t
    rw [ht] at hplace
    refine h1.move (p := s.ptable) ?_ (h1.ptable_same ?_) hplace ?_ nofun nofun
    · show _ = (s.phase t).holdsLk
      rw [ht]
      rfl
    · show _ = (s.phase t).holdsPtable
      rw [ht]
      rfl
    · show ∀ k, _ → N.token (s.phase t) = some k
      rw [ht]
      exact fun _ => id
  · obtain rfl := Option.some.inj hs
    exact h1

theorem Sound.step (hG : Sound G N P) (h : Inv N s) {a : Label ι T W} (hP : Only P s a) (hs : s.step G a = some s') :
    Inv N s' := by
  cases a with
  | call t i => exact hG.call h hs
  | go t => exact hG.go h hP hs
  | kill t => exact h.kill hs
  | device w =>
    obtain ⟨d, hd, rfl⟩ := Option.map_eq_some_iff.1 hs
    exact h.stable (hG.device w s.data d h.known hd)

/-- The annotations hold in every state that is reached. -/
theorem Sound.inv (hG : Sound G N P) (hJ : N.J d) (h : (G.machine T d).ReachBy (Only P) s) : Inv N s := by
  refine h.inv (I := Inv N) ?_ fun s a s' h hP hs => hG.step h hP hs
  rintro _ rfl
  refine ⟨?_, ?_, fun _ => trivial, nofun, fun _ => ⟨hJ, nofun⟩, nofun⟩
  · exact fun t => ⟨nofun, nofun⟩
  · exact fun t => ⟨nofun, nofun⟩

/-- With every statement permitted, every run counts. -/
theorem Reach.only (h : (G.machine T d).Reach s) : (G.machine T d).ReachBy (Only fun _ _ _ => True) s :=
  h.mono fun _ a _ => by cases a <;> simp [Only]

end

end Guarded

end Xv6
