import Xv6Threading.Vm.Threads

/-!
# Page conservation (`vm.c:222-345`, `kalloc.c:59-95`)

Any number of page directories draw from one free list, in any order of calls. Every physical page stays at
one place: on the free list, as a directory, as a page table, or mapped below `KERNBASE` by one entry of one
directory. Next to each directory stands the size the kernel has for it, which is the one it passes on:

| here | there |
| --- | --- |
| `allocuvm d sz newsz` | `growproc` (`proc.c:177`) and the segments of `exec` (`exec.c:52`) |
| `allocuvm d (roundUp sz) …` | the stack of `exec` (`exec.c:65-66`) |
| `deallocuvm d newsz` | `growproc` (`proc.c:180`); a result of 0 counts as failure, the size stays |
| `copyuvm d` | `fork` (`proc.c:206`) |
| `kalloc p`, `kfree p` | the kernel stacks, which make free pages scarce at any moment |

A directory that has been freed is gone, so it is not freed or used again. A call that panics ends the run;
only `copyuvm` can, at a page below the size that is not mapped.
-/

namespace Xv6.Vm

open Function

structure Pages where
  kmem : Kmem
  kstack : Slot → Option Ppn
  dirs : Ppn → Option Pgd
  sz : Ppn → Nat

/-- `PGROUNDUP`. -/
def roundUp (sz : Nat) : Nat := pageCount sz * 4096

namespace Pages

inductive Op where
  | setupkvm
  | allocuvm (d : Ppn) (oldsz newsz : Nat)
  | deallocuvm (d : Ppn) (newsz : Nat)
  | copyuvm (d : Ppn)
  | freevm (d : Ppn)
  | kalloc (p : Slot)
  | kfree (p : Slot)

/-- The contents and the size of directory `d`, and the allocator, after a call. -/
def put (s : Pages) (d : Ppn) (k : Kmem) (pgd : Pgd) (sz : Nat) : Pages :=
  { s with kmem := k, dirs := update s.dirs d (some pgd), sz := update s.sz d sz }

/-- What a function that builds a directory has returned, to be used with size `sz`. -/
def adopt (s : Pages) (sz : Nat) : Kmem × Option (Ppn × Pgd) → Pages × Option Ppn
  | (k, none) => ({ s with kmem := k }, none)
  | (k, some (d, pgd)) => (s.put d k pgd sz, some d)

def setupkvm (L : Layout) (s : Pages) : Except Panic (Pages × Option Ppn) :=
  (Vm.setupkvm L s.kmem).map (s.adopt 0)

def copyuvm (L : Layout) (s : Pages) (d : Ppn) : Except Panic (Option (Pages × Option Ppn)) :=
  match s.dirs d with
  | none => .ok none
  | some pgd => (Vm.copyuvm L pgd (s.sz d) s.kmem).map fun r => some (s.adopt (s.sz d) r)

/-- The sizes that `growproc` and `exec` pass for a directory whose size is `sz`. -/
def Passed (sz oldsz newsz : Nat) : Prop := oldsz = sz ∨ oldsz = roundUp sz ∧ newsz = oldsz + 2 * 4096

instance (sz oldsz newsz : Nat) : Decidable (Passed sz oldsz newsz) := inferInstanceAs (Decidable (_ ∨ _))

/-- The callers keep the old size when the result is 0. -/
def allocuvm (L : Layout) (s : Pages) (d : Ppn) (oldsz newsz : Nat) : Except Panic (Option (Pages × Nat)) :=
  match s.dirs d with
  | none => .ok none
  | some pgd =>
    if Passed (s.sz d) oldsz newsz then
      (Vm.allocuvm L ⟨s.kmem, pgd⟩ oldsz newsz).map fun r =>
        some (s.put d r.1.kmem r.1.pgd (if r.2 = 0 then s.sz d else r.2), r.2)
    else .ok none

def deallocuvm (L : Layout) (s : Pages) (d : Ppn) (newsz : Nat) : Except Panic (Option (Pages × Nat)) :=
  match s.dirs d with
  | none => .ok none
  | some pgd =>
    (Vm.deallocuvm L ⟨s.kmem, pgd⟩ (s.sz d) newsz).map fun r =>
      some (s.put d r.1.kmem r.1.pgd (if r.2 = 0 then s.sz d else r.2), r.2)

def freevm (L : Layout) (s : Pages) (d : Ppn) : Except Panic (Option Pages) :=
  match s.dirs d with
  | none => .ok none
  | some pgd =>
    (Vm.freevm L ⟨s.kmem, pgd⟩ d).map fun k => some { s with kmem := k, dirs := update s.dirs d none }

def kalloc (s : Pages) (p : Slot) : Option Pages :=
  match s.kstack p with
  | some _ => none
  | none => (Vm.kalloc s.kmem).map fun r => { s with kmem := r.2, kstack := update s.kstack p (some r.1) }

def kfree (L : Layout) (s : Pages) (p : Slot) : Except Panic (Option Pages) :=
  match s.kstack p with
  | none => .ok none
  | some f => (Vm.kfree L s.kmem f).map fun k => some { s with kmem := k, kstack := update s.kstack p none }

def call (L : Layout) (s : Pages) : Op → Except Panic (Option Pages)
  | .setupkvm => (s.setupkvm L).map fun r => some r.1
  | .allocuvm d oldsz newsz => (s.allocuvm L d oldsz newsz).map fun r => r.map Prod.fst
  | .deallocuvm d newsz => (s.deallocuvm L d newsz).map fun r => r.map Prod.fst
  | .copyuvm d => (s.copyuvm L d).map fun r => r.map Prod.fst
  | .freevm d => s.freevm L d
  | .kalloc p => .ok (s.kalloc p)
  | .kfree p => s.kfree L p

def step (L : Layout) (s : Pages) (op : Op) : Option Pages :=
  match s.call L op with
  | .ok r => r
  | .error _ => none

/-- All of physical memory is on the free list, once. -/
def Fresh (U : Set Ppn) (s : Pages) : Prop :=
  s.kmem.free.Nodup ∧ (∀ f, f ∈ U ↔ f ∈ s.kmem.free) ∧ (∀ p, s.kstack p = none) ∧ ∀ d, s.dirs d = none

/-- The pages `U` are those the allocator was given: all of them pass the test of `kfree`. -/
def machine (L : Layout) (U : Set Ppn) : Machine Pages Op where
  init s := Usable L U ∧ s.Fresh U
  step := step L

/-! ## The invariant -/

/-- Nothing is mapped from the size on up to `KERNBASE`; that is what the next `allocuvm` relies on. -/
structure Sound (L : Layout) (U : Set Ppn) (s : Pages) : Prop where
  usable : Usable L U
  split : Split U s.kmem.free (place s.kstack s.dirs)
  size : ∀ d pgd, s.dirs d = some pgd → s.sz d < KERNBASE
  above : ∀ d pgd, s.dirs d = some pgd → ∀ w, w < UPAGES → pageCount (s.sz d) ≤ w → present pgd w = false

section Sound

variable {L : Layout} {U : Set Ppn} {s s' : Pages} {d : Ppn} {pgd : Pgd} {p : Slot}

section

variable (h : Sound L U s) {k : Kmem} {sz : Nat}
include h

theorem Sound.owns (hd : s.dirs d = some pgd) : Space.Owns U (outside s.kstack s.dirs d) ⟨s.kmem, pgd⟩ :=
  (owns_iff_split hd).2 h.split

theorem put_sizes (hsz : sz < KERNBASE) (hab : ∀ w, w < UPAGES → pageCount sz ≤ w → present pgd w = false)
    (hs : Split U k.free (place s.kstack (update s.dirs d (some pgd)))) : Sound L U (s.put d k pgd sz) := by
  refine ⟨h.usable, hs, ?_, ?_⟩
  · intro e q hq
    by_cases hed : e = d
    · simpa [put, hed] using hsz
    · simp only [put, update_of_ne hed] at hq ⊢
      exact h.size e q hq
  intro e q hq
  by_cases hed : e = d
  · subst hed
    simp only [put, update_self, Option.some.injEq] at hq ⊢
    exact hq ▸ hab
  · simp only [put, update_of_ne hed] at hq ⊢
    exact h.above e q hq

/-- One directory changes, and the free list with it. -/
theorem Sound.replace {old : Pgd} (hd : s.dirs d = some old)
    (ho : Space.Owns U (outside s.kstack s.dirs d) ⟨k, pgd⟩) (hsz : sz < KERNBASE)
    (hab : ∀ w, w < UPAGES → pageCount sz ≤ w → present pgd w = false) : Sound L U (s.put d k pgd sz) := by
  refine put_sizes h hsz hab ((owns_iff_split (d := d) (update_self d (some pgd) s.dirs)).1 ?_)
  rwa [outside_update (by simp [hd])]

/-- A directory has been built, or nothing has happened. -/
theorem Sound.adopt {r : Option (Ppn × Pgd)} {P : Pgd → Prop}
    (hb : Built U (place s.kstack s.dirs) P k r) (hsz : sz < KERNBASE)
    (hP : ∀ pgd, P pgd → ∀ w, w < UPAGES → pageCount sz ≤ w → present pgd w = false) :
    Sound L U (s.adopt sz (k, r)).1 := by
  cases r with
  | none => exact ⟨h.usable, hb, h.size, h.above⟩
  | some r =>
    obtain ⟨d, pgd⟩ := r
    exact put_sizes h hsz (hP pgd hb.2) (split_adopt hb.1).2

theorem sound_setupkvm : ∃ s' r, s.setupkvm L = .ok (s', r) ∧ Sound L U s' := by
  obtain ⟨k, r, hk, hb⟩ := setupkvm_spec h.usable h.split
  refine ⟨_, _, by rw [setupkvm, hk]; rfl, h.adopt hb (by decide) ?_⟩
  intro pgd hP w hw _
  exact hP.1 w hw

theorem sound_copyuvm {r : Pages × Option Ppn} (hs : s.copyuvm L d = .ok (some r)) : Sound L U r.1 := by
  unfold copyuvm at hs
  split at hs
  · cases hs
  rename_i pgd hd
  have hsz := h.size d pgd hd
  rcases copyuvm_cases h.usable h.split pgd hsz.le with ⟨⟨p, hp⟩, -⟩ | ⟨k, r', hk, hb⟩
  · rw [hp] at hs
    cases hs
  rw [hk] at hs
  cases hs
  refine h.adopt hb hsz ?_
  intro pgd hP w hw hge
  by_contra hpr
  have := (hP.maps w hw).1 (Bool.eq_true_of_not_eq_false hpr)
  omega

end

/-- A failed `copyuvm` changes no directory. -/
theorem copyuvm_none (hs : s.copyuvm L d = .ok (some (s', none))) : s'.dirs = s.dirs := by
  unfold copyuvm at hs
  split at hs
  · cases hs
  rename_i pgd _
  cases hc : Vm.copyuvm L pgd (s.sz d) s.kmem with
  | error p =>
    rw [hc] at hs
    cases hs
  | ok r =>
    obtain ⟨k, _ | ⟨d', pgd'⟩⟩ := r <;> rw [hc] at hs <;> cases hs
    rfl

/-- `allocuvm` maps what it says or nothing more than before, without a panic. -/
structure Grown (s s' : Pages) (d : Ppn) (old pgd : Pgd) (r : Nat) : Prop where
  dirs : s'.dirs = update s.dirs d (some pgd)
  failed : r = 0 → ∀ w, w < UPAGES →
    present pgd w = present old w ∧ (present old w = true → pte pgd w = pte old w)

theorem pageCount_roundUp (sz : Nat) : pageCount (roundUp sz) = pageCount sz := by
  simp only [pageCount, roundUp]
  omega

theorem sound_allocuvm (h : Sound L U s) (hd : s.dirs d = some pgd) {oldsz newsz : Nat}
    (hp : Passed (s.sz d) oldsz newsz) : ∃ s' r pgd', s.allocuvm L d oldsz newsz = .ok (some (s', r)) ∧
      Sound L U s' ∧ Grown s s' d pgd pgd' r := by
  have hsz := h.size d pgd hd
  have hab := h.above d pgd hd
  have hpc : pageCount oldsz = pageCount (s.sz d) := by
    rcases hp with rfl | ⟨rfl, -⟩
    · rfl
    · exact pageCount_roundUp _
  have hself : s.put d s.kmem pgd (s.sz d) = s := by
    simp [put, ← hd]
  have hcall : ∀ {t r}, Vm.allocuvm L ⟨s.kmem, pgd⟩ oldsz newsz = .ok (t, r) →
      s.allocuvm L d oldsz newsz = .ok (some (s.put d t.kmem t.pgd (if r = 0 then s.sz d else r), r)) := by
    intro t r hr
    simp [allocuvm, hd, hp, hr, Except.map]
  by_cases hbig : newsz ≥ KERNBASE
  · refine ⟨s, 0, pgd, ?_, h, ⟨by simp [← hd], fun _ w _ => ⟨rfl, fun _ => rfl⟩⟩⟩
    rw [hcall (t := ⟨s.kmem, pgd⟩) (r := 0) (by rw [Vm.allocuvm, if_pos hbig]), if_pos rfl, hself]
  by_cases hlt : newsz < oldsz
  · -- only the size itself is passed with a smaller one
    have hold : oldsz = s.sz d := by
      rcases hp with e | ⟨-, e⟩
      · exact e
      · omega
    refine ⟨s, oldsz, pgd, ?_, h, ⟨by simp [← hd], fun _ w _ => ⟨rfl, fun _ => rfl⟩⟩⟩
    rw [hcall (t := ⟨s.kmem, pgd⟩) (r := oldsz) (by rw [Vm.allocuvm, if_neg hbig, if_pos hlt]),
      if_neg (by omega), hold, hself]
  have hup := pageCount_le_upages (Nat.le_of_not_le hbig)
  have hle := pageCount_le (Nat.le_of_not_lt hlt)
  obtain ⟨sp, r, hr, ho, hpte, hcase⟩ := allocuvm_spec (L := L) h.usable (h.owns hd) (Nat.le_of_not_lt hlt)
    (by omega) fun w h1 h2 => hab w (by omega) (by omega)
  have hout : ∀ w, w < UPAGES → pageCount newsz ≤ w → present sp.pgd w = false := by
    intro w hw hge
    rw [present, hpte w (by omega), ← present]
    exact hab w hw (by omega)
  rcases hcase with ⟨hrn, -, -⟩ | ⟨hr0, hnone⟩
  · by_cases hz : newsz = 0
    · -- nothing to map: the result 0 is then not a failure, but nothing has changed either
      have hr0 : r = 0 := hrn.trans hz
      have hz0 : pageCount newsz = 0 := by rw [hz]; rfl
      refine ⟨_, r, sp.pgd, hcall hr, ?_, rfl, fun _ w hw => ?_⟩
      · rw [if_pos hr0]
        refine h.replace hd ho hsz fun w hw hge => hout w hw (by omega)
      · have := hpte w (by omega)
        exact ⟨by rw [present, this, ← present], fun _ => this⟩
    · have hr0 : r ≠ 0 := fun e => hz (hrn ▸ e)
      refine ⟨_, r, sp.pgd, hcall hr, ?_, rfl, fun e => absurd e hr0⟩
      rw [if_neg hr0, hrn]
      exact h.replace hd ho (by omega) hout
  have hlow : ∀ w, w < UPAGES → present sp.pgd w = present pgd w ∧
      (present pgd w = true → pte sp.pgd w = pte pgd w) := by
    intro w hw
    by_cases hin : pageCount oldsz ≤ w ∧ w < pageCount newsz
    · have hold := hab w hw (by omega)
      exact ⟨(hnone w hin.1 hin.2).trans hold.symm, fun hpr => by rw [hold] at hpr; cases hpr⟩
    · have := hpte w (by omega)
      exact ⟨by rw [present, this, ← present], fun _ => this⟩
  refine ⟨_, r, sp.pgd, hcall hr, ?_, rfl, fun _ => hlow⟩
  rw [if_pos hr0]
  refine h.replace hd ho hsz fun w hw hge => ?_
  rw [(hlow w hw).1]
  exact hab w hw hge

theorem sound_deallocuvm (h : Sound L U s) (hd : s.dirs d = some pgd) (newsz : Nat) :
    ∃ s' r, s.deallocuvm L d newsz = .ok (some (s', r)) ∧ Sound L U s' := by
  have hsz := h.size d pgd hd
  have hup := pageCount_le_upages hsz.le
  obtain ⟨sp, hr, ho, hpte, hnone⟩ := deallocuvm_spec h.usable (h.owns hd) newsz hsz.le
  have hab : ∀ w, w < UPAGES → pageCount (min (s.sz d) newsz) ≤ w → present sp.pgd w = false := by
    intro w hw hge
    by_cases hin : pageCount newsz ≤ w ∧ w < pageCount (s.sz d)
    · exact hnone w hin.1 hin.2
    have hout : pageCount (s.sz d) ≤ w := by
      rcases Nat.le_total (s.sz d) newsz with e | e
      · rwa [Nat.min_eq_left e] at hge
      · rw [Nat.min_eq_right e] at hge
        omega
    rw [present, hpte w (.inr hout), ← present]
    exact h.above d pgd hd w hw hout
  refine ⟨_, _, by simp [deallocuvm, hd, hr, Except.map]; exact ⟨rfl, rfl⟩, ?_⟩
  split
  · refine h.replace hd ho hsz fun w hw hge => hab w hw ?_
    exact (pageCount_le (Nat.min_le_left _ _)).trans hge
  · exact h.replace hd ho (by omega) hab

/-- A page that directory `d` uses: its own, a page table or a page it maps below `KERNBASE`. -/
def Uses (s : Pages) (d : Ppn) (f : Ppn) : Prop := ∃ pgd, s.dirs d = some pgd ∧ (f = d ∨ ∃ x, loc pgd x = some f)

theorem uses_iff (s : Pages) (d f : Ppn) : s.Uses d f ↔
    place s.kstack s.dirs (.dir d) = some f ∨ ∃ x, place s.kstack s.dirs (.spot d x) = some f := by
  cases hd : s.dirs d <;> simp [Uses, place, hd, eq_comm]

theorem sound_freevm (h : Sound L U s) (hd : s.dirs d = some pgd) :
    ∃ s', s.freevm L d = .ok (some s') ∧ Sound L U s' ∧
      ∀ f, f ∈ s'.kmem.free ↔ f ∈ s.kmem.free ∨ s.Uses d f := by
  obtain ⟨k, hk, hs⟩ := freevm_spec h.usable (h.owns hd) (x := .dir d) (d := d) (by simp [outside, hd])
  rw [← place_free] at hs
  refine ⟨_, by simp [freevm, hd, hk, Except.map]; rfl, ⟨h.usable, hs, ?_, ?_⟩, ?_⟩
  · intro e q hq
    by_cases hed : e = d
    · simp [hed] at hq
    · simp only [update_of_ne hed] at hq
      exact h.size e q hq
  · intro e q hq
    by_cases hed : e = d
    · simp [hed] at hq
    · simp only [update_of_ne hed] at hq
      exact h.above e q hq
  intro f
  -- what stands at the places of `d` is nowhere else, and nothing of it is left there
  have hrest : ∀ y, place s.kstack (update s.dirs d none) y = some f →
      place s.kstack s.dirs y = some f ∧ y ≠ .dir d ∧ ∀ x, y ≠ .spot d x := by
    intro y hy
    rw [place_free] at hy
    cases y with
    | kstack p => exact ⟨by simpa [outside, place] using hy, by simp, by simp⟩
    | dir d' =>
      by_cases e : d' = d
      · simp [e] at hy
      · exact ⟨by simpa [outside, place, e] using hy, by simpa using e, by simp⟩
    | spot d' x =>
      by_cases e : d' = d
      · simp [outside, e] at hy
      · exact ⟨by simpa [outside, place, e] using hy, by simp, fun x' hx => e (by cases hx; rfl)⟩
  rw [uses_iff]
  constructor
  · intro hf
    rcases (h.split.mem f).1 (hs.mem f |>.2 (.inl hf)) with hfree | ⟨y, hy⟩
    · exact .inl hfree
    right
    by_cases hyd : y = .dir d
    · exact .inl (hyd ▸ hy)
    by_cases hyx : ∃ x, y = .spot d x
    · obtain ⟨x, rfl⟩ := hyx
      exact .inr ⟨x, hy⟩
    exfalso
    refine hs.apart y f ?_ hf
    rw [place_free, update_of_ne hyd]
    cases y with
    | kstack p => exact hy
    | dir d' => exact hy
    | spot d' x =>
      have e : d' ≠ d := by
        rintro rfl
        exact hyx ⟨x, rfl⟩
      simpa [outside, place, e] using hy
  intro hf
  have hU : f ∈ U := by
    rcases hf with hf | hf | ⟨x, hf⟩
    · exact (h.split.mem f).2 (.inl hf)
    · exact h.split.mem_of_loc hf
    · exact h.split.mem_of_loc hf
  rcases (hs.mem f).1 hU with hfree | ⟨y, hy⟩
  · exact hfree
  obtain ⟨hy, hne, hnx⟩ := hrest y hy
  rcases hf with hf | hf | ⟨x, hf⟩
  · exact absurd hf (h.split.apart y f hy)
  · exact absurd (h.split.inj y _ f hy hf) hne
  · exact absurd (h.split.inj y _ f hy hf) (hnx x)

theorem sound_kalloc (h : Sound L U s) (hs : s.kalloc p = some s') : Sound L U s' := by
  unfold kalloc at hs
  split at hs
  · cases hs
  rename_i hp
  cases hf : s.kmem.free with
  | nil => simp [Vm.kalloc, hf] at hs
  | cons f free =>
    simp only [Vm.kalloc, hf, Option.map_some, Option.some.injEq] at hs
    subst hs
    refine ⟨h.usable, ?_, h.size, h.above⟩
    have hsp := h.split
    rw [hf] at hsp
    simpa only [place_kstack] using hsp.take (x := .kstack p) hp

theorem sound_kfree (h : Sound L U s) (hs : s.kfree L p = .ok (some s')) : Sound L U s' := by
  unfold kfree at hs
  split at hs
  · cases hs
  rename_i f hp
  have hsp := h.split.give (x := .kstack p) hp
  obtain ⟨k, hk, hfree⟩ := kfree_spec h.usable (h.split.mem_of_loc (x := .kstack p) hp) s.kmem
  rw [hk] at hs
  cases hs
  refine ⟨h.usable, ?_, h.size, h.above⟩
  show Split U k.free _
  rw [hfree, place_kstack]
  exact hsp

theorem sound_step (h : Sound L U s) {op : Op} (hs : s.step L op = some s') : Sound L U s' := by
  have hcall : s.call L op = .ok (some s') := by
    unfold step at hs
    split at hs
    next r hr =>
      rw [hr, hs]
    · cases hs
  cases op with
  | setupkvm =>
    obtain ⟨t, r, ht, hsound⟩ := sound_setupkvm h
    simp only [call, ht, Except.map, Except.ok.injEq, Option.some.injEq] at hcall
    exact hcall ▸ hsound
  | allocuvm d oldsz newsz =>
    cases hd : s.dirs d with
    | none => simp [call, allocuvm, hd, Except.map] at hcall
    | some pgd =>
      by_cases hp : Passed (s.sz d) oldsz newsz
      · obtain ⟨t, r, -, ht, hsound, -⟩ := sound_allocuvm h hd hp
        simp only [call, ht, Except.map, Option.map_some, Except.ok.injEq, Option.some.injEq] at hcall
        exact hcall ▸ hsound
      · simp [call, allocuvm, hd, hp, Except.map] at hcall
  | deallocuvm d newsz =>
    cases hd : s.dirs d with
    | none => simp [call, deallocuvm, hd, Except.map] at hcall
    | some pgd =>
      obtain ⟨t, r, ht, hsound⟩ := sound_deallocuvm h hd newsz
      simp only [call, ht, Except.map, Option.map_some, Except.ok.injEq, Option.some.injEq] at hcall
      exact hcall ▸ hsound
  | copyuvm d =>
    cases hc : s.copyuvm L d with
    | error p => simp [call, hc, Except.map] at hcall
    | ok r =>
      cases r with
      | none => simp [call, hc, Except.map] at hcall
      | some r =>
        simp only [call, hc, Except.map, Option.map_some, Except.ok.injEq, Option.some.injEq] at hcall
        exact hcall ▸ sound_copyuvm h hc
  | freevm d =>
    cases hd : s.dirs d with
    | none => simp [call, freevm, hd] at hcall
    | some pgd =>
      obtain ⟨t, ht, hsound, -⟩ := sound_freevm h hd
      simp only [call, ht, Except.ok.injEq, Option.some.injEq] at hcall
      exact hcall ▸ hsound
  | kalloc p => exact sound_kalloc h (by simpa [call] using hcall)
  | kfree p => exact sound_kfree h hcall

theorem sound_reach (h : (machine L U).Reach s) : Sound L U s := by
  refine Machine.Reach.inv (I := Sound L U) ?_ ?_ h
  · rintro s ⟨hU, hnd, hmem, hk, hd⟩
    have hnone : ∀ y, place s.kstack s.dirs y = none := by
      intro y
      cases y <;> simp [place, hk, hd]
    refine ⟨hU, ⟨hnd, ?_, ?_, ?_⟩, ?_, ?_⟩
    · intro y f hy
      simp [hnone] at hy
    · intro y z f hy
      simp [hnone] at hy
    · intro f
      simp [hmem, hnone]
    · intro d pgd hpgd
      simp [hd] at hpgd
    · intro d pgd hpgd
      simp [hd] at hpgd
  · intro s op t hs ht
    exact sound_step hs ht

/-- The user mappings of every directory are those it had. -/
def SameMaps (s s' : Pages) : Prop := ∀ d pgd, s.dirs d = some pgd → ∃ pgd', s'.dirs d = some pgd' ∧
  ∀ w, w < UPAGES → present pgd' w = present pgd w ∧ (present pgd w = true → pte pgd' w = pte pgd w)

/-- **Pages are conserved**: after any calls on any number of directories every page is at one place. A
failed `allocuvm` or `copyuvm` leaves all user mappings as they were and loses no page, and `freevm` puts
exactly the pages of its directory on the free list, each once. -/
theorem page_conservation (h : (machine L U).Reach s) :
    Split U s.kmem.free (place s.kstack s.dirs) ∧
    (∀ d oldsz newsz s', s.allocuvm L d oldsz newsz = .ok (some (s', 0)) →
      SameMaps s s' ∧ Split U s'.kmem.free (place s'.kstack s'.dirs)) ∧
    (∀ d s', s.copyuvm L d = .ok (some (s', none)) →
      SameMaps s s' ∧ Split U s'.kmem.free (place s'.kstack s'.dirs)) ∧
    ∀ d, (s.dirs d).isSome = true → ∃ s', s.freevm L d = .ok (some s') ∧ s'.kmem.free.Nodup ∧
      (∀ f, s.Uses d f → f ∉ s.kmem.free) ∧ ∀ f, f ∈ s'.kmem.free ↔ f ∈ s.kmem.free ∨ s.Uses d f := by
  have hsound := sound_reach h
  refine ⟨hsound.split, ?_, ?_, ?_⟩
  · intro d oldsz newsz s' hs
    cases hd : s.dirs d with
    | none => simp [allocuvm, hd] at hs
    | some pgd =>
      by_cases hp : Passed (s.sz d) oldsz newsz
      · obtain ⟨t, r, pgd', ht, hst, hg⟩ := sound_allocuvm hsound hd hp
        rw [ht] at hs
        cases hs
        refine ⟨?_, hst.split⟩
        intro e q hq
        by_cases hed : e = d
        · subst hed
          rw [hd] at hq
          cases hq
          exact ⟨pgd', by simp [hg.dirs], hg.failed rfl⟩
        · exact ⟨q, by simp [hg.dirs, hed, hq], fun w _ => ⟨rfl, fun _ => rfl⟩⟩
      · simp [allocuvm, hd, hp] at hs
  · intro d s' hs
    refine ⟨?_, (sound_copyuvm hsound hs).split⟩
    intro e q hq
    exact ⟨q, by rw [copyuvm_none hs, hq], fun w _ => ⟨rfl, fun _ => rfl⟩⟩
  intro d hd
  obtain ⟨pgd, hd⟩ := Option.isSome_iff_exists.1 hd
  obtain ⟨s', hs, hsound', hmem⟩ := sound_freevm hsound hd
  refine ⟨s', hs, hsound'.split.nodup, ?_, hmem⟩
  intro f hf
  rcases (uses_iff s d f).1 hf with hf | ⟨x, hf⟩
  · exact hsound.split.apart _ f hf
  · exact hsound.split.apart _ f hf

end Sound

/-- Eighty pages, all of them free: more than the 65 that `setupkvm` takes. -/
def eighty : Pages := ⟨⟨List.range' 1000 80, fun _ _ => 0#8⟩, fun _ => none, fun _ => none, fun _ => 0⟩

theorem eighty_init : (machine smallLayout {f | f ∈ List.range' 1000 80}).init eighty :=
  ⟨usable_range' (by decide), List.nodup_range', fun _ => Iff.rfl, fun _ => rfl, fun _ => rfl⟩

/-- One page becomes a kernel stack; whatever `setupkvm` does then with the others, none is lost. -/
theorem page_conservation_eighty : ∃ s t r, eighty.kalloc 0 = some s ∧ s.setupkvm smallLayout = .ok (t, r) ∧
    (machine smallLayout {f | f ∈ List.range' 1000 80}).Reach t ∧
    Split {f | f ∈ List.range' 1000 80} t.kmem.free (place t.kstack t.dirs) := by
  obtain ⟨s, hs⟩ : ∃ s, eighty.kalloc 0 = some s := ⟨_, rfl⟩
  have h1 : (machine smallLayout {f | f ∈ List.range' 1000 80}).Reach s :=
    (Machine.ReachBy.init eighty_init).step (a := .kalloc 0) trivial (by simp [machine, step, call, hs])
  obtain ⟨t, r, ht, -⟩ := sound_setupkvm (sound_reach h1)
  have h2 : (machine smallLayout {f | f ∈ List.range' 1000 80}).Reach t :=
    Machine.ReachBy.step h1 (a := .setupkvm) trivial (by simp [machine, step, call, ht, Except.map])
  exact ⟨s, t, r, hs, ht, h2, (page_conservation h2).1⟩

end Pages

end Xv6.Vm
