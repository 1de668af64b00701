import Xv6Threading.Proc.Kernel
import Xv6Threading.Vm.Spec

/-!
# Threads that share a page directory and their sizes (`proc.c:171-236`, `proc.c:667-725`)

`clone` copies `sz` into the new slot together with `pgdir`; `growproc` changes the directory and the
`sz` of the caller only. So after an `sbrk` by one of several threads the others' `sz` no longer says
which pages are mapped, and `mappages` and `copyuvm`, which trust it, panic.

| here | there |
| --- | --- |
| `Sys.kstack`, `Sys.dirs` | `p->kstack`; the contents of the page directories, by the page they live in |
| `Sys.alloc` | `allocproc` (`proc.c:85`), with the kernel stack from `kalloc` |
| `clone`, `fork`, `sbrk` | the system calls; `clone` with a bad stack ends in `exit` (`proc.c:672`) |

A call that panics is an error. What a call returns to the user is not recorded.
-/

namespace Xv6.Vm

open Function

structure Sys where
  pt : Ptable
  nextpid : BitVec 32
  initproc : Slot
  kstack : Slot → Option Ppn
  dirs : Ppn → Option Pgd
  kmem : Kmem

inductive Act where
  | clone (p : Slot) (stack : BitVec 32)
  | fork (p : Slot)
  | sbrk (p : Slot) (n : BitVec 32)

namespace Sys

def sz (s : Sys) (p : Slot) : Nat := (s.pt p).sz.toNat

/-- A slot with a kernel stack, or none; a failed attempt leaves its pid. -/
def alloc (s : Sys) : Sys × Option Slot :=
  match s.pt.freeSlot with
  | none => (s, none)
  | some np =>
    match kalloc s.kmem with
    | none =>
      ({ s with
        pt := s.pt.modify np fun q => { q with pid := s.nextpid }
        nextpid := s.nextpid + 1
        kstack := update s.kstack np none }, none)
    | some (f, k) =>
      ({ s with
        pt := s.pt.modify np fun q => { q with state := .EMBRYO, pid := s.nextpid }
        nextpid := s.nextpid + 1
        kstack := update s.kstack np (some f)
        kmem := k }, some np)

/-- `np` becomes a thread of `p`. -/
def thread (s : Sys) (p np : Slot) (stack : BitVec 32) : Sys :=
  { s with pt := s.pt.modify np fun q =>
      { q with pgdir := (s.pt p).pgdir, sz := (s.pt p).sz, parent := some p, ustack := stack,
               tickets := (s.pt p).tickets, state := .RUNNABLE, refs := (s.pt p).refs } }

def clone (s : Sys) (p : Slot) (stack : BitVec 32) : Option Sys :=
  if stack + PGSIZE > (s.pt p).sz ∨ stack % PGSIZE ≠ 0 then
    if p = s.initproc then none else some { s with pt := s.pt.exitTable p s.initproc }
  else
    match s.alloc with
    | (s, none) => some s
    | (s, some np) => some (s.thread p np stack)

/-- The directory that `copyuvm` has made becomes that of `np`. -/
def child (s : Sys) (p np : Slot) (d : Ppn) (pgd : Pgd) (k : Kmem) : Sys :=
  { s with
    pt := s.pt.modify np fun q =>
      { q with pgdir := d, sz := (s.pt p).sz, parent := some p, tickets := 1, state := .RUNNABLE }
    dirs := update s.dirs d (some pgd)
    kmem := k }

/-- `np` is given up: its kernel stack has been freed. -/
def giveUp (s : Sys) (np : Slot) (k : Kmem) : Sys :=
  { s with
    pt := s.pt.modify np fun q => { q with pgdir := 0, state := .UNUSED }
    kstack := update s.kstack np none
    kmem := k }

def fork (L : Layout) (s : Sys) (p : Slot) : Except Panic (Option Sys) :=
  match s.alloc with
  | (s, none) => .ok (some s)
  | (s, some np) =>
    match s.dirs (s.pt p).pgdir with
    | none => .ok none
    | some src =>
      match copyuvm L src (s.sz p) s.kmem with
      | .error e => .error e
      | .ok (k, some (d, pgd)) => .ok (some (s.child p np d pgd k))
      | .ok (k, none) =>
        match s.kstack np with
        | none => .ok none
        | some f => (kfree L k f).map fun k => some (s.giveUp np k)

/-- What `growproc` has made of the space of `p`; no other slot is told. -/
def resize (s : Sys) (p : Slot) (sp : Space) (sz : Nat) : Sys :=
  { s with
    pt := s.pt.modify p fun q => { q with sz := BitVec.ofNat 32 sz }
    dirs := update s.dirs (s.pt p).pgdir (some sp.pgd)
    kmem := sp.kmem }

def sbrk (L : Layout) (s : Sys) (p : Slot) (n : BitVec 32) : Except Panic (Option Sys) :=
  match s.dirs (s.pt p).pgdir with
  | none => .ok none
  | some pgd => (growproc L ⟨s.kmem, pgd⟩ (s.sz p) n.toInt).map fun r => some (s.resize p r.1 r.2.1)

/-- The outcome of a call by a process that can run: a panic, or the next state. -/
def call (L : Layout) (s : Sys) : Act → Except Panic (Option Sys)
  | .clone p stack => if (s.pt p).state = .RUNNABLE then .ok (s.clone p stack) else .ok none
  | .fork p => if (s.pt p).state = .RUNNABLE then s.fork L p else .ok none
  | .sbrk p n => if (s.pt p).state = .RUNNABLE then s.sbrk L p n else .ok none

def step (L : Layout) (s : Sys) (a : Act) : Option Sys :=
  match s.call L a with
  | .ok r => r
  | .error _ => none

def panics (L : Layout) (s : Sys) (a : Act) : Option Panic :=
  match s.call L a with
  | .ok _ => none
  | .error e => some e

end Sys

/-! ## The invariant -/

/-- Where physical pages are: kernel stacks, page directories, and what is inside those. -/
inductive Place where
  | kstack (p : Slot)
  | dir (d : Ppn)
  | spot (d : Ppn) (x : Spot)
deriving DecidableEq

def place (kstack : Slot → Option Ppn) (dirs : Ppn → Option Pgd) : Place → Option Ppn
  | .kstack p => kstack p
  | .dir d => (dirs d).map fun _ => d
  | .spot d x => (dirs d).bind fun pgd => loc pgd x

/-- The live slots' sizes agree with each other and with the directories. -/
structure Sized (pt : Ptable) (dirs : Ppn → Option Pgd) : Prop where
  size : ∀ p, (pt p).state.live = true → (pt p).sz.toNat < KERNBASE
  agree : ∀ p q, (pt p).state.live = true → (pt q).state.live = true → (pt p).pgdir = (pt q).pgdir →
    (pt p).sz = (pt q).sz
  maps : ∀ p, (pt p).state.live = true → ∃ pgd, dirs (pt p).pgdir = some pgd ∧ Maps pgd (pt p).sz.toNat

structure Good (L : Layout) (U : Set Ppn) (s : Sys) : Prop where
  usable : Usable L U
  split : Split U s.kmem.free (place s.kstack s.dirs)
  unused : ∀ p, (s.pt p).state = .UNUSED → s.kstack p = none
  sized : Sized s.pt s.dirs

/-- One live process, with exactly its pages mapped, and physical memory split as it should. -/
def machine (L : Layout) (U : Set Ppn) : Machine Sys Act where
  init s := Good L U s ∧ ∃ p, ∀ q, (s.pt q).state.live = true → q = p
  step := Sys.step L

/-- No other live slot has the page directory of `p`. -/
def Alone (s : Sys) (p : Slot) : Prop :=
  ∀ q, q ≠ p → (s.pt q).state.live = true → (s.pt q).pgdir ≠ (s.pt p).pgdir

instance (s : Sys) (p : Slot) : Decidable (Alone s p) := by unfold Alone; infer_instance

/-- `sbrk(n)` is called by a thread that shares its directory with no other, and does not shrink it to
nothing; or it cannot change anything, since `n` is 0 or the new size is out of range. -/
def SbrkAlone (s : Sys) : Act → Prop
  | .sbrk p n =>
    n = 0 ∨ KERNBASE ≤ s.sz p + n.toInt ∨ s.sz p + n.toInt < 0 ∨ Alone s p ∧ ¬ (n.toInt < 0 ∧ s.sz p + n.toInt = 0)
  | .clone _ _ | .fork _ => True

instance (s : Sys) : (a : Act) → Decidable (SbrkAlone s a)
  | .sbrk p n => inferInstanceAs (Decidable (n = 0 ∨ KERNBASE ≤ s.sz p + n.toInt ∨ s.sz p + n.toInt < 0 ∨
      Alone s p ∧ ¬ (n.toInt < 0 ∧ s.sz p + n.toInt = 0)))
  | .clone _ _ | .fork _ => inferInstanceAs (Decidable True)

/-! ### Sizes -/

section Sized

variable {pt pt' : Ptable} {dirs : Ppn → Option Pgd} {p : Slot}

/-- Slots may stop being live. -/
theorem Sized.of_live (h : Sized pt dirs)
    (hl : ∀ q, (pt' q).state.live = true → (pt q).state.live = true ∧ (pt' q).sz = (pt q).sz ∧
      (pt' q).pgdir = (pt q).pgdir) : Sized pt' dirs := by
  refine ⟨?_, ?_, ?_⟩
  · intro p hp
    obtain ⟨hp, hsz, -⟩ := hl p hp
    rw [hsz]
    exact h.size p hp
  · intro p q hp hq hpq
    obtain ⟨hp, hsz, hd⟩ := hl p hp
    obtain ⟨hq, hsz', hd'⟩ := hl q hq
    rw [hsz, hsz']
    exact h.agree p q hp hq (by rw [← hd, ← hd', hpq])
  · intro p hp
    obtain ⟨hp, hsz, hd⟩ := hl p hp
    rw [hsz, hd]
    exact h.maps p hp

/-- A slot takes the directory and the size of a live one. -/
theorem Sized.share (h : Sized pt dirs) (hp : (pt p).state.live = true) {k : Slot}
    (hne : ∀ q, q ≠ k → pt' q = pt q) (hsz : (pt' k).sz = (pt p).sz) (hd : (pt' k).pgdir = (pt p).pgdir) :
    Sized pt' dirs := by
  -- each live slot of the new table has the directory and the size of a live slot of the old one
  have hl : ∀ q, (pt' q).state.live = true → ∃ r, (pt r).state.live = true ∧ (pt' q).sz = (pt r).sz ∧
      (pt' q).pgdir = (pt r).pgdir := by
    intro q hq
    by_cases e : q = k
    · subst e
      exact ⟨p, hp, hsz, hd⟩
    · rw [hne q e] at hq ⊢
      exact ⟨q, hq, rfl, rfl⟩
  refine ⟨?_, ?_, ?_⟩
  · intro q hq
    obtain ⟨r, hr, hsz, -⟩ := hl q hq
    rw [hsz]
    exact h.size r hr
  · intro q r hq hr hqr
    obtain ⟨q', hq', hsz, hd⟩ := hl q hq
    obtain ⟨r', hr', hsz', hd'⟩ := hl r hr
    rw [hsz, hsz']
    exact h.agree q' r' hq' hr' (by rw [← hd, ← hd', hqr])
  · intro q hq
    obtain ⟨r, hr, hsz, hd⟩ := hl q hq
    rw [hsz, hd]
    exact h.maps r hr

/-- A slot gets a directory of its own, or keeps one that no other live slot has. -/
theorem Sized.own (h : Sized pt dirs) {d : Ppn} {pgd : Pgd} (hne : ∀ q, q ≠ p → pt' q = pt q)
    (hd : (pt' p).pgdir = d) (hsz : (pt' p).sz.toNat < KERNBASE) (hm : Maps pgd (pt' p).sz.toNat)
    (halone : ∀ q, q ≠ p → (pt q).state.live = true → (pt q).pgdir ≠ d) :
    Sized pt' (update dirs d (some pgd)) := by
  have hdiff : ∀ q, q ≠ p → (pt' q).state.live = true → (pt' q).pgdir ≠ d := by
    intro q e hq
    rw [hne q e] at hq ⊢
    exact halone q e hq
  refine ⟨?_, ?_, ?_⟩
  · intro q hq
    by_cases e : q = p
    · rwa [e]
    · rw [hne q e] at hq ⊢
      exact h.size q hq
  · intro q r hq hr hqr
    by_cases e : q = p
    · by_cases e' : r = p
      · rw [e, e']
      · exact absurd (by rw [← hqr, e, hd]) (hdiff r e' hr)
    by_cases e' : r = p
    · exact absurd (by rw [hqr, e', hd]) (hdiff q e hq)
    · rw [hne q e] at hq hqr ⊢
      rw [hne r e'] at hr hqr ⊢
      exact h.agree q r hq hr hqr
  intro q hq
  by_cases e : q = p
  · subst e
    exact ⟨pgd, by simp [hd], hm⟩
  · rw [update_of_ne (hdiff q e hq)]
    rw [hne q e] at hq ⊢
    exact h.maps q hq

end Sized

/-! ### One directory among the others -/

section Places

variable {U : Set Ppn} {kstack : Slot → Option Ppn} {dirs : Ppn → Option Pgd} {k : Kmem} {d : Ppn} {pgd : Pgd}

/-- All places but those inside the directory `d`. -/
def outside (kstack : Slot → Option Ppn) (dirs : Ppn → Option Pgd) (d : Ppn) : Place → Option Ppn
  | .kstack p => kstack p
  | .dir d' => (dirs d').map fun _ => d'
  | .spot d' x => if d' = d then none else (dirs d').bind fun pgd => loc pgd x

/-- A place, as one outside the directory `d` or inside it. -/
def inOrOut (d : Ppn) : Place → Place ⊕ Spot
  | .kstack p => .inl (.kstack p)
  | .dir d' => .inl (.dir d')
  | .spot d' x => if d' = d then .inr x else .inl (.spot d' x)

theorem inOrOut_injective (d : Ppn) : Injective (inOrOut d) := by
  intro y z h
  cases y <;> cases z <;> simp only [inOrOut] at h <;> grind

theorem inOrOut_place (hd : dirs d = some pgd) (y : Place) :
    Sum.elim (outside kstack dirs d) (loc pgd) (inOrOut d y) = place kstack dirs y := by
  cases y with
  | kstack p => rfl
  | dir d' => rfl
  | spot d' x =>
    by_cases e : d' = d
    · simp [inOrOut, place, e, hd]
    · simp [inOrOut, place, outside, e]

theorem inOrOut_range {z : Place ⊕ Spot} {f : Ppn} (h : Sum.elim (outside kstack dirs d) (loc pgd) z = some f) :
    ∃ y, inOrOut d y = z := by
  rcases z with (p | d' | ⟨d', x⟩) | x
  · exact ⟨.kstack p, rfl⟩
  · exact ⟨.dir d', rfl⟩
  · by_cases e : d' = d
    · simp [outside, e] at h
    · exact ⟨.spot d' x, by simp [inOrOut, e]⟩
  · exact ⟨.spot d x, by simp [inOrOut]⟩

theorem owns_iff_split (hd : dirs d = some pgd) :
    Space.Owns U (outside kstack dirs d) ⟨k, pgd⟩ ↔ Split U k.free (place kstack dirs) :=
  ⟨fun h => h.restrict (inOrOut d) (inOrOut_injective d) (fun y => (inOrOut_place hd y).symm) fun _ _ => inOrOut_range,
    fun h => h.embed (inOrOut d) (inOrOut_place hd) fun _ _ => inOrOut_range⟩

/-- Replacing the contents of `d` changes nothing outside it. -/
theorem outside_update (hd : (dirs d).isSome) :
    outside kstack (update dirs d (some pgd)) d = outside kstack dirs d := by
  obtain ⟨old, hold⟩ := Option.isSome_iff_exists.1 hd
  ext y
  cases y with
  | kstack p => rfl
  | dir d' =>
    by_cases e : d' = d
    · simp [outside, e, hold]
    · simp [outside, e]
  | spot d' x => by_cases e : d' = d <;> simp [outside, e]

/-- A new directory, whose page was held, joins the others. -/
theorem split_adopt (h : Space.Owns U (withHeld (place kstack dirs) (some d)) ⟨k, pgd⟩) :
    dirs d = none ∧ Split U k.free (place kstack (update dirs d (some pgd))) := by
  have hd : dirs d = none := by
    -- otherwise the page would be at two places
    rw [Option.eq_none_iff_forall_ne_some]
    intro old hold
    have := Split.inj h (.inl none) (.inl (some (.dir d))) d rfl (by simp [withHeld, place, hold])
    cases this
  refine ⟨hd, Split.restrict h (fun y => if y = .dir d then .inl none else (inOrOut d y).map some id) ?_ ?_ ?_⟩
  · intro y z hyz
    have hne : ∀ w : Place, (inOrOut d w).map some id ≠ (.inl none : Option Place ⊕ Spot) := by
      intro w
      cases inOrOut d w <;> simp
    have hinj : Injective (Sum.map some id : Place ⊕ Spot → Option Place ⊕ Spot) :=
      Sum.map_injective.2 ⟨fun _ _ => Option.some.inj, injective_id⟩
    by_cases hy : y = .dir d <;> by_cases hz : z = .dir d <;> simp only [hy, hz, if_true, if_false] at hyz ⊢
    · exact absurd hyz.symm (hne z)
    · exact absurd hyz (hne y)
    · exact inOrOut_injective d (hinj hyz)
  · intro y
    cases y with
    | kstack p => simp [place, inOrOut, withHeld]
    | dir d' => by_cases e : d' = d <;> simp [place, inOrOut, withHeld, e]
    | spot d' x => by_cases e : d' = d <;> simp [place, inOrOut, withHeld, e]
  rintro ((_ | p | d' | ⟨d', x⟩) | x) f hf
  · exact ⟨.dir d, by simp⟩
  · exact ⟨.kstack p, by simp [inOrOut]⟩
  · have e : d' ≠ d := by
      rintro rfl
      simp [withHeld, place, hd] at hf
    exact ⟨.dir d', by simp [inOrOut, e]⟩
  · have e : d' ≠ d := by
      rintro rfl
      simp [withHeld, place, hd] at hf
    exact ⟨.spot d' x, by simp [inOrOut, e]⟩
  · exact ⟨.spot d x, by simp [inOrOut]⟩

theorem place_kstack (p : Slot) (o : Option Ppn) :
    place (update kstack p o) dirs = update (place kstack dirs) (.kstack p) o := by
  ext y
  cases y with
  | kstack q => by_cases e : q = p <;> simp [place, e]
  | dir d' => simp [place]
  | spot d' x => simp [place]

theorem place_free (kstack : Slot → Option Ppn) (dirs : Ppn → Option Pgd) (d : Ppn) :
    place kstack (update dirs d none) = update (outside kstack dirs d) (.dir d) none := by
  ext y
  cases y with
  | kstack p => simp [place, outside]
  | dir d' => by_cases e : d' = d <;> simp [place, outside, e]
  | spot d' x => by_cases e : d' = d <;> simp [place, outside, e]

end Places

/-! ## The calls keep the invariant -/

section Calls

variable {L : Layout} {U : Set Ppn} {s s' : Sys} {p : Slot} {pid : BitVec 32}

theorem live_of_runnable (h : (s.pt p).state = .RUNNABLE) : (s.pt p).state.live = true := by rw [h]; rfl

/-- Only the slots that stop being live, or free, differ. -/
theorem Good.of_pt (h : Good L U s) {pt : Ptable}
    (hl : ∀ q, (pt q).state.live = true → (s.pt q).state.live = true ∧ (pt q).sz = (s.pt q).sz ∧
      (pt q).pgdir = (s.pt q).pgdir) (hu : ∀ q, (pt q).state = .UNUSED → (s.pt q).state = .UNUSED) :
    Good L U { s with pt := pt, nextpid := pid } :=
  ⟨h.usable, h.split, fun q hq => h.unused q (hu q hq), h.sized.of_live hl⟩

/-- A slot is edited and does not become live; its kernel stack is `o`. -/
theorem Good.edit (h : Good L U s) (np : Slot) {f : Proc → Proc} {o : Option Ppn} {k : Kmem}
    (hf : (f (s.pt np)).state.live = false) (ho : (f (s.pt np)).state = .UNUSED → o = none)
    (hs : Split U k.free (update (place s.kstack s.dirs) (.kstack np) o)) :
    Good L U { s with
      pt := s.pt.modify np f, nextpid := pid, kstack := update s.kstack np o, kmem := k } := by
  refine ⟨h.usable, by simpa only [place_kstack] using hs, fun (q : Slot)
    (hq : (s.pt.modify np f q).state = .UNUSED) => ?_,
    h.sized.of_live fun q (hq : (s.pt.modify np f q).state.live = true) => ?_⟩
  · by_cases e : q = np
    · subst e
      rw [Ptable.modify_self] at hq
      simp [ho hq]
    · rw [Ptable.modify_ne _ _ e] at hq
      simp [e, h.unused q hq]
  by_cases e : q = np
  · subst e
    rw [Ptable.modify_self, hf] at hq
    cases hq
  · rw [Ptable.modify_ne _ _ e] at hq
    simp [Ptable.modify_ne _ _ e, hq]

/-- `allocproc` finds no slot, or edits one: it stays unused without a kernel stack, or becomes an embryo with one. -/
theorem alloc_cases (hs : Split U s.kmem.free (place s.kstack s.dirs))
    (hu : ∀ p, (s.pt p).state = .UNUSED → s.kstack p = none) :
    s.alloc = (s, none) ∨ ∃ np f o k r, (s.pt np).state = .UNUSED ∧
      s.alloc = ({ s with
        pt := s.pt.modify np f, nextpid := s.nextpid + 1, kstack := update s.kstack np o, kmem := k }, r) ∧
      ((f (s.pt np)).state = .UNUSED ∨ (f (s.pt np)).state = .EMBRYO) ∧ ((f (s.pt np)).state = .UNUSED → o = none) ∧
      Split U k.free (update (place s.kstack s.dirs) (.kstack np) o) ∧
      ∀ np', r = some np' → np' = np ∧ o.isSome := by
  unfold Sys.alloc
  cases hfree : s.pt.freeSlot with
  | none => exact .inl rfl
  | some np =>
    right
    have hnp := Ptable.freeSlot_some hfree
    have hkstack : place s.kstack s.dirs (.kstack np) = none := hu np hnp
    cases hk : s.kmem.free with
    | nil =>
      simp only [kalloc, hk]
      refine ⟨np, fun q => { q with pid := s.nextpid }, none, s.kmem, none, hnp, rfl, .inl hnp, fun _ => rfl, ?_, ?_⟩
      · rw [← hkstack, update_eq_self]
        exact hs
      · rintro _ ⟨⟩
    | cons g free =>
      simp only [kalloc, hk]
      rw [hk] at hs
      refine ⟨np, fun q => { q with state := .EMBRYO, pid := s.nextpid }, some g, ⟨free, s.kmem.ram⟩, some np, hnp,
        rfl, .inr rfl, (by rintro ⟨⟩), hs.take hkstack, ?_⟩
      rintro _ ⟨⟩
      exact ⟨rfl, rfl⟩

section

variable (h : Good L U s)
include h

/-- `allocproc` touches no live slot; the slot it returns has a kernel stack. -/
theorem alloc_spec : Good L U s.alloc.1 ∧
    (∀ q, (s.pt q).state.live = true → s.alloc.1.pt q = s.pt q) ∧
    ∀ np, s.alloc.2 = some np → ∃ f, s.alloc.1.kstack np = some f := by
  rcases alloc_cases h.split h.unused with ha | ⟨np, f, o, k, r, hnp, ha, hf, ho, hs, hr⟩ <;> rw [ha]
  · refine ⟨h, fun _ _ => rfl, ?_⟩
    rintro np ⟨⟩
  refine ⟨h.edit np ?_ ho hs, ?_, ?_⟩
  · rcases hf with hf | hf <;> rw [hf] <;> rfl
  · intro q hq
    apply Ptable.modify_ne
    rintro rfl
    simp [hnp, Procstate.live] at hq
  · intro np' hnp'
    obtain ⟨rfl, hsome⟩ := hr np' hnp'
    simpa [Option.isSome_iff_exists] using hsome

theorem clone_spec (hp : (s.pt p).state = .RUNNABLE) {stack : BitVec 32}
    (hs : s.clone p stack = some s') : Good L U s' := by
  unfold Sys.clone at hs
  split at hs
  · split at hs
    · cases hs
    · cases hs
      apply h.of_pt
      · intro q hq
        rw [Ptable.exitTable_frame]
        refine ⟨?_, rfl, rfl⟩
        by_cases e : q = p
        · simp [e, Procstate.live] at hq
        rw [Ptable.exitTable_state _ _ _ e] at hq
        split at hq
        next hz =>
          simp [hz.1, Procstate.live]
        · exact hq
      intro q hq
      by_cases e : q = p
      · simp [e] at hq
      rw [Ptable.exitTable_state _ _ _ e] at hq
      split at hq
      · cases hq
      · exact hq
  obtain ⟨hg, hlive, -⟩ := alloc_spec h
  have hp' := hlive p (live_of_runnable hp)
  rcases hs1 : s.alloc with ⟨s1, _ | np⟩ <;> simp only [hs1] at hs hg hp'
  · cases hs
    exact hg
  cases hs
  have hpl : (s1.pt p).state.live = true := by rw [hp', hp]; rfl
  refine ⟨hg.usable, hg.split, ?_, hg.sized.share (k := np) hpl (fun q e => by simp [Sys.thread,
    Ptable.modify_ne _ _ e]) (by simp [Sys.thread]) (by simp [Sys.thread])⟩
  intro q hq
  by_cases e : q = np
  · simp [Sys.thread, e] at hq
  · simp only [Sys.thread, Ptable.modify_ne _ _ e] at hq
    exact hg.unused q hq

theorem fork_spec (hp : (s.pt p).state = .RUNNABLE) : ∃ s', s.fork L p = .ok (some s') ∧ Good L U s' := by
  obtain ⟨hg, hlive, hnew⟩ := alloc_spec h
  have hp' := hlive p (live_of_runnable hp)
  unfold Sys.fork
  rcases hs1 : s.alloc with ⟨s1, _ | np⟩ <;> simp only [hs1] at hg hp' hnew ⊢
  · exact ⟨s1, rfl, hg⟩
  obtain ⟨f, hf⟩ := hnew np rfl
  have hpl : (s1.pt p).state.live = true := by rw [hp', hp]; rfl
  obtain ⟨src, hsrc, hm⟩ := hg.sized.maps p hpl
  have hsz := hg.sized.size p hpl
  have hup := pageCount_le_upages hsz.le
  obtain ⟨k, r, hk, hr⟩ := copyuvm_spec hg.usable hg.split hsz.le fun w hw => (hm w (by omega)).2 hw
  cases r with
  | some r =>
    obtain ⟨d, pgd⟩ := r
    obtain ⟨ho, hmaps, -, -⟩ := hr
    obtain ⟨hd, hsplit⟩ := split_adopt ho
    refine ⟨s1.child p np d pgd k, by simp only [hsrc, Sys.sz, hk], hg.usable, hsplit, ?_, ?_⟩
    · intro q hq
      by_cases e : q = np
      · simp [Sys.child, e] at hq
      · simp only [Sys.child, Ptable.modify_ne _ _ e] at hq
        exact hg.unused q hq
    refine hg.sized.own (p := np) (fun q e => by simp [Sys.child,
      Ptable.modify_ne _ _ e]) (by simp [Sys.child]) (by simpa [Sys.child] using hsz)
      (by simpa [Sys.child] using hmaps) ?_
    intro q _ hq hqd
    obtain ⟨_, hsome, -⟩ := hg.sized.maps q hq
    rw [hqd, hd] at hsome
    cases hsome
  | none =>
    have hf' : place s1.kstack s1.dirs (.kstack np) = some f := hf
    obtain ⟨k', hk', hfree⟩ := kfree_spec hg.usable (Split.mem_of_loc hr hf') k
    refine ⟨s1.giveUp np k', by simp only [hsrc, Sys.sz, hk, hf, hk', Except.map],
      hg.edit np rfl (fun _ => rfl) ?_⟩
    rw [hfree]
    exact Split.give hr hf'

/-- `sbrk` does not panic where sizes and directories agree; they still do if the caller is alone. -/
theorem sbrk_spec (hp : (s.pt p).state = .RUNNABLE) (n : BitVec 32) :
    ∃ s', s.sbrk L p n = .ok (some s') ∧ (SbrkAlone s (.sbrk p n) → Good L U s') := by
  have hpl := live_of_runnable hp
  obtain ⟨pgd, hd, hm⟩ := h.sized.maps p hpl
  have hsz := h.sized.size p hpl
  have hlo : -2 ^ 31 ≤ n.toInt := by have := BitVec.le_toInt n; omega
  have hhi : n.toInt < 2 ^ 31 := by have := BitVec.toInt_lt (x := n); omega
  obtain ⟨sp, sz', r, hgrow, ho, hsz', hmaps, hsame⟩ :=
    growproc_spec h.usable ((owns_iff_split hd).2 h.split) hsz hlo hhi hm
  refine ⟨s.resize p sp sz', by simp only [Sys.sbrk, hd, Sys.sz, hgrow, Except.map], ?_⟩
  intro hg
  have hnat : (BitVec.ofNat 32 sz').toNat = sz' := by
    rw [BitVec.toNat_ofNat]
    exact Nat.mod_eq_of_lt (hsz'.trans (by decide))
  have hne : ∀ q, q ≠ p → (s.resize p sp sz').pt q = s.pt q := by
    intro q e
    simp [Sys.resize, Ptable.modify_ne _ _ e]
  have hself : (s.resize p sp sz').pt p = { s.pt p with sz := BitVec.ofNat 32 sz' } := by
    simp [Sys.resize]
  refine ⟨h.usable, ?_, ?_, ?_⟩
  · apply (owns_iff_split (d := (s.pt p).pgdir) (update_self ..)).1
    show Space.Owns U (outside s.kstack (update s.dirs (s.pt p).pgdir (some sp.pgd)) (s.pt p).pgdir) sp
    rw [outside_update (by simp [hd])]
    exact ho
  · intro q hq
    by_cases e : q = p
    · rw [e, hself, hp] at hq
      cases hq
    · rw [hne q e] at hq
      exact h.unused q hq
  have hcase : (n = 0 ∨ KERNBASE ≤ s.sz p + n.toInt ∨ s.sz p + n.toInt < 0) ∨
      Alone s p ∧ ¬ (n.toInt < 0 ∧ s.sz p + n.toInt = 0) := by
    rcases hg with hg | hg | hg | hg
    exacts [.inl (.inl hg), .inl (.inr (.inl hg)), .inl (.inr (.inr hg)), .inr hg]
  rcases hcase with hnop | ⟨halone, hnz⟩
  · obtain ⟨rfl, rfl⟩ := hsame (hnop.imp_left fun h0 => by rw [h0]; rfl)
    have hdirs : (s.resize p ⟨s.kmem, pgd⟩ (s.pt p).sz.toNat).dirs = s.dirs := by
      rw [Sys.resize, ← hd, update_eq_self]
    rw [hdirs]
    exact h.sized.share hpl hne (by simp [hself]) (by rw [hself])
  · refine h.sized.own hne (by rw [hself]) ?_ ?_ halone
    · simpa only [hself, hnat] using hsz'
    · simpa only [hself, hnat] using hmaps hnz

theorem call_spec (a : Act) : ∃ r, s.call L a = .ok r ∧ (SbrkAlone s a → ∀ s', r = some s' → Good L U s') := by
  cases a with
  | clone p stack =>
    by_cases hp : (s.pt p).state = .RUNNABLE
    · exact ⟨_, if_pos hp, fun _ s' hs => clone_spec h hp hs⟩
    · exact ⟨none, if_neg hp, fun _ _ hs => nomatch hs⟩
  | fork p =>
    by_cases hp : (s.pt p).state = .RUNNABLE
    · obtain ⟨s', hs', hg⟩ := fork_spec h hp
      refine ⟨some s', (if_pos hp).trans hs', ?_⟩
      intro _ t ht
      cases ht
      exact hg
    · exact ⟨none, if_neg hp, fun _ _ hs => nomatch hs⟩
  | sbrk p n =>
    by_cases hp : (s.pt p).state = .RUNNABLE
    · obtain ⟨s', hs', hg⟩ := sbrk_spec h hp n
      refine ⟨some s', (if_pos hp).trans hs', ?_⟩
      intro ha t ht
      cases ht
      exact hg ha
    · exact ⟨none, if_neg hp, fun _ _ hs => nomatch hs⟩

end

theorem good_reach (h : (machine L U).ReachBy SbrkAlone s) : Good L U s := by
  apply h.inv (I := Good L U)
  · rintro s ⟨hs, -⟩
    exact hs
  intro s a t hg ha hs
  obtain ⟨r, hr, hgood⟩ := call_spec hg a
  simp only [machine, Sys.step, hr] at hs
  exact hgood ha t hs

/-- **Threads agree on the size of their address space, and what it takes.** In every run in which
`sbrk` changes the size only for a caller that shares its page directory with no live thread, and never
to zero, live threads with the same directory have the same size, all pages below it are present, and
no call panics. -/
theorem sizes_agree (h : (machine L U).ReachBy SbrkAlone s) :
    (∀ p q, (s.pt p).state.live = true → (s.pt q).state.live = true → (s.pt p).pgdir = (s.pt q).pgdir →
      s.sz p = s.sz q) ∧
    (∀ p, (s.pt p).state.live = true → ∃ pgd, s.dirs (s.pt p).pgdir = some pgd ∧
      ∀ v, v < pageCount (s.sz p) → present pgd v = true) ∧
    ∀ a, s.panics L a = none := by
  have hg := good_reach h
  refine ⟨fun p q hp hq hpq => congrArg BitVec.toNat (hg.sized.agree p q hp hq hpq), ?_, ?_⟩
  · intro p hp
    obtain ⟨pgd, hd, hm⟩ := hg.sized.maps p hp
    have hup := pageCount_le_upages (hg.sized.size p hp).le
    exact ⟨pgd, hd, fun v hv => (hm v (Nat.lt_of_lt_of_le hv hup)).2 hv⟩
  · intro a
    obtain ⟨r, hr, -⟩ := call_spec hg a
    simp only [Sys.panics, hr]

end Calls

/-! ### A process with nothing mapped, and thirteen pages of memory -/

def small : Sys where
  pt := fun q => if q = 0 then { Proc.zero with state := .RUNNABLE, pgdir := 1001, pid := 1#32 } else Proc.zero
  nextpid := 2#32
  initproc := 0
  kstack := fun q => if q = 0 then some 1000 else none
  dirs := fun d => if d = 1001 then some fun _ => none else none
  kmem := ⟨smallPages.drop 2, fun _ _ => 0#8⟩

theorem small_place : place small.kstack small.dirs =
    update (update (fun _ => none) (.kstack 0) (some 1000)) (.dir 1001) (some 1001) := by
  ext y
  cases y with
  | kstack p => by_cases e : p = 0 <;> simp [place, small, e]
  | dir d => by_cases e : d = 1001 <;> simp [place, small, e]
  | spot d x =>
    by_cases e : d = 1001
    · cases x <;> simp [place, small, e, loc, present, pte_empty, present_zero]
    · simp [place, small, e]

theorem small_init : (machine smallLayout {f | f ∈ smallPages}).init small := by
  have hlive : ∀ q, (small.pt q).state.live = true → q = 0 := by decide
  refine ⟨⟨small_usable, ?_, by decide, ?_, ?_, ?_⟩, 0, hlive⟩
  · rw [small_place]
    exact ((small_split (X := Place)).take (x := .kstack 0) rfl).take (x := .dir 1001) (by simp)
  · intro p hp
    rw [hlive p hp]
    decide
  · intro p q hp hq _
    rw [hlive p hp, hlive q hq]
  · intro p hp
    rw [hlive p hp]
    refine ⟨fun _ => none, rfl, ?_⟩
    intro w _
    simp [present, pte_empty, present_zero, small, Proc.zero, pageCount]

/-- The process grows to three pages, creates a thread, and the two call `sbrk(0)`. -/
theorem sizes_agree_clone : ∃ s, (machine smallLayout {f | f ∈ smallPages}).ReachBy SbrkAlone s ∧
    (s.pt 1).pgdir = (s.pt 0).pgdir ∧ s.sz 1 = 12288 ∧ s.sz 0 = s.sz 1 ∧ ∀ a, s.panics smallLayout a = none := by
  obtain ⟨s, hs, hp⟩ := Machine.exists_reachBy (G := SbrkAlone) small_init
    [.sbrk 0 8192, .sbrk 0 4096, .clone 0 4096, .sbrk 0 0, .sbrk 1 0]
    (fun s => (s.pt 0).state.live ∧ (s.pt 1).state.live ∧ (s.pt 1).pgdir = (s.pt 0).pgdir ∧ s.sz 1 = 12288)
    (by decide)
  obtain ⟨h0, h1, hd, hsz⟩ := of_decide_eq_true hp
  obtain ⟨hagree, -, hpanic⟩ := sizes_agree hs
  exact ⟨s, hs, hd, hsz, hagree 0 1 h0 h1 hd.symm, hpanic⟩

/-! ### The runs that break it

A thread grows the address space it shares: the other one still has the old size, and its own `sbrk`
panics. A thread shrinks it: the other's size covers a page that is not there. -/

theorem sizes_differ :
    (∃ s, (machine smallLayout {f | f ∈ smallPages}).Reach s ∧ (s.pt 0).state.live = true ∧
      (s.pt 1).state.live = true ∧ (s.pt 0).pgdir = (s.pt 1).pgdir ∧ s.sz 0 ≠ s.sz 1 ∧
      s.panics smallLayout (.sbrk 0 4096) = some .remap) ∧
    ∃ s, (machine smallLayout {f | f ∈ smallPages}).Reach s ∧ (s.pt 0).state.live = true ∧
      ∃ pgd, s.dirs (s.pt 0).pgdir = some pgd ∧ ∃ v, v < pageCount (s.sz 0) ∧ present pgd v = false := by
  constructor
  · obtain ⟨s, hs, hp⟩ := Machine.exists_reachBy (G := fun _ _ => True) small_init
      [.sbrk 0 4096, .clone 0 0, .sbrk 1 4096]
      (fun s => (s.pt 0).state.live ∧ (s.pt 1).state.live ∧ (s.pt 0).pgdir = (s.pt 1).pgdir ∧ s.sz 0 ≠ s.sz 1 ∧
        s.panics smallLayout (.sbrk 0 4096) = some .remap) (by decide)
    exact ⟨s, hs, of_decide_eq_true hp⟩
  obtain ⟨s, hs, hp⟩ := Machine.exists_reachBy (G := fun _ _ => True) small_init
    [.sbrk 0 8192, .clone 0 0, .sbrk 1 (-4096)]
    (fun s => (s.pt 0).state.live ∧ 1 < pageCount (s.sz 0) ∧
      (s.dirs (s.pt 0).pgdir).any fun pgd => !present pgd 1) (by decide)
  obtain ⟨h0, hv, hd⟩ := of_decide_eq_true hp
  obtain ⟨pgd, hpgd, hnp⟩ := (Option.any_eq_true _ _).1 hd
  exact ⟨s, hs, h0, pgd, hpgd, 1, hv, by simpa using hnp⟩

end Xv6.Vm
