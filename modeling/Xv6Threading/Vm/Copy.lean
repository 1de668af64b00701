import Xv6Threading.Vm.Spec

/-!
# The copy of an address space (`vm.c:313-345`)

`copyuvm` gives a child the bytes of its parent: a new directory, and for every page below `sz` a page of its own with
the same contents and the same flags. All pages are drawn from the free list, and only what is drawn is written to, so
that the pages of the parent stay as they are, and nothing is shared afterwards.

| here | there |
| --- | --- |
| `Kmem.read`, `Kmem.write` | a load and a store at a user address, through a page directory |
| `CopyOf` | what the directory returned is |
-/

namespace Xv6.Vm

open Function

def Kmem.read (k : Kmem) (pgd : Pgd) (a : Nat) : BitVec 8 := k.ram (pte pgd (a / 4096)).ppn (a % 4096)

def Kmem.write (k : Kmem) (pgd : Pgd) (a : Nat) (b : BitVec 8) : Kmem :=
  let f := (pte pgd (a / 4096)).ppn
  { k with ram := update k.ram f (update (k.ram f) (a % 4096) b) }

section Copy

variable {X : Type} [DecidableEq X] {U : Set Ppn} {c : X → Option Ppn} {L : Layout}

/-- What `copyuvm` returns for a directory: the bytes and flags of all addresses below `sz`, and pages of its own. -/
structure CopyOf (c : X → Option Ppn) (src pgd : Pgd) (sz : Nat) (k k' : Kmem) : Prop where
  bytes : ∀ a < sz, k'.read pgd a = k.read src a
  flags : ∀ a < sz, (pte pgd (a / 4096)).flags = (pte src (a / 4096)).flags
  /-- All its pages are different, and none was in use before, for the source or for anything else. -/
  distinct : ∀ x y f, loc pgd x = some f → loc pgd y = some f → x = y
  apart : ∀ x f, loc pgd x = some f → (∀ y, loc src y ≠ some f) ∧ ∀ y, c y ≠ some f
  /-- Nothing is mapped from `PGROUNDUP(sz)` to `KERNBASE`. -/
  above : ∀ v, pageCount sz ≤ v → v < UPAGES → present pgd v = false
  /-- The source is as it was. -/
  source : ∀ x f, loc src x = some f → k'.ram f = k.ram f
  /-- Whatever memory holds later, a store through one of the two does not show through the other. -/
  isolated : ∀ (m : Kmem) (a b : Nat) (x : BitVec 8), a < KERNBASE → b < KERNBASE → present pgd (a / 4096) = true →
    present src (b / 4096) = true →
    (m.write pgd a x).read src b = m.read src b ∧ (m.write src b x).read pgd a = m.read pgd a

theorem loc_of_present {pgd : Pgd} {v : Nat} (hv : v < UPAGES) (h : present pgd v = true) :
    loc pgd (.user v) = some (pte pgd v).ppn := if_pos ⟨hv, h⟩

theorem read_write_of_ne {m : Kmem} {pgd pgd' : Pgd} {a b : Nat}
    (h : (pte pgd' (b / 4096)).ppn ≠ (pte pgd (a / 4096)).ppn) (x : BitVec 8) :
    (m.write pgd a x).read pgd' b = m.read pgd' b := by
  show update m.ram _ _ _ _ = _
  rw [update_of_ne h]
  rfl

/-- **`copyuvm` gives an equal and isolated copy.** For every directory with all pages below `sz` mapped and none of
its own pages free, and any list of free pages: it does not panic; what it returns is a copy, or nothing, and then the
free pages are those from before. -/
theorem copyuvm_copy (hU : Usable L U) {k : Kmem} (h : Split U k.free c) {src : Pgd} {sz : Nat} (hsz : sz ≤ KERNBASE)
    (hmapped : ∀ v < pageCount sz, present src v = true) (hsrc : ∀ x f, loc src x = some f → f ∉ k.free) :
    ∃ k' r, copyuvm L src sz k = .ok (k', r) ∧
      (r = none → k'.free.Perm k.free) ∧ ∀ d pgd, r = some (d, pgd) → CopyOf c src pgd sz k k' := by
  obtain ⟨k', r, hrun, hbuilt⟩ := copyuvm_spec hU h hsz hmapped
  refine ⟨k', r, hrun, ?_, ?_⟩
  · rintro rfl
    exact h.perm hbuilt
  rintro d pgd rfl
  obtain ⟨howns, hmaps, hdraws, hsame⟩ := hbuilt
  have hup := pageCount_le_upages hsz
  have hloop := hsame fun v hv => hsrc (.user v) _ (loc_of_present (by omega) (hmapped v hv))
  have hpage : ∀ a < sz, a / 4096 < pageCount sz := by
    intro a ha
    rw [pageCount]
    omega
  have hapart : ∀ x f, loc pgd x = some f → ∀ y, c y ≠ some f := by
    intro x f hx y hy
    cases howns.inj (.inr x) (.inl (some y)) f hx hy
  have hother : ∀ x f, loc pgd x = some f → ∀ y, loc src y ≠ some f := by
    -- a page of the copy was free
    intro x f hx y hy
    have hU : f ∈ U := howns.mem_of_loc (x := .inr x) hx
    exact hsrc y f hy (((h.mem f).1 hU).resolve_right fun ⟨z, hz⟩ => hapart x f hx z hz)
  refine ⟨fun a ha => ?_, fun a ha => (hloop _ (hpage a ha)).1, ?_, ?_, ?_, ?_, ?_⟩
  · exact congrFun (hloop _ (hpage a ha)).2 _
  · intro x y f hx hy
    exact Sum.inr.inj (howns.inj (.inr x) (.inr y) f hx hy)
  · exact fun x f hx => ⟨hother x f hx, hapart x f hx⟩
  · intro v h1 h2
    have := (hmaps v h2).not.2 (by omega)
    simpa using this
  · intro x f hx
    exact hdraws.ram f (hsrc x f hx)
  intro m a b x ha hb hpa hpb
  have hla := loc_of_present (by simp only [KERNBASE, UPAGES] at *; omega) hpa
  have hlb := loc_of_present (by simp only [KERNBASE, UPAGES] at *; omega) hpb
  have hne : (pte pgd (a / 4096)).ppn ≠ (pte src (b / 4096)).ppn := by
    intro heq
    rw [heq] at hla
    exact hother _ _ hla _ hlb
  exact ⟨read_write_of_ne hne.symm x, read_write_of_ne hne x⟩

end Copy

/-- One page of a process, 1001, with its page table in page 1000. -/
def onePageProcess : Pgd := fun i =>
  if i = 0 then some ⟨1000, fun j => if j = 0 then ⟨1001, PTE_P ||| PTE_W ||| PTE_U⟩ else .zero⟩ else none

/-- They are in use. -/
def tableAndPage (b : Bool) : Option Ppn := some (if b then 1000 else 1001)

theorem loc_onePageProcess {x : Spot} {f : Ppn} (h : loc onePageProcess x = some f) : f = 1000 ∨ f = 1001 := by
  cases x with
  | table i =>
    by_cases hi : i = 0
    · subst hi
      cases h
      exact .inl rfl
    · simp [loc, onePageProcess, hi] at h
  | user v =>
    by_cases hi : v / 1024 = 0
    · by_cases hj : v % 1024 = 0
      · simp [loc, pte, walk, onePageProcess, hi, hj] at h
        exact .inr h.2.symm
      · simp [loc, present, pte, walk, onePageProcess, hi, hj, present_zero] at h
    · simp [loc, present, pte, walk, onePageProcess, hi, present_zero] at h

/-- Pages 1002 to 1079 are free. -/
theorem copyuvm_copy_onePage : ∃ k' r,
    copyuvm smallLayout onePageProcess 4000 ⟨List.range' 1002 78, fun f o => BitVec.ofNat 8 (f + o)⟩ = .ok (k', r) ∧
      (r = none → k'.free.Perm (List.range' 1002 78)) ∧ ∀ d pgd, r = some (d, pgd) →
        CopyOf tableAndPage onePageProcess pgd 4000 ⟨List.range' 1002 78, fun f o => BitVec.ofNat 8 (f + o)⟩ k' := by
  have hsplit : Split {f | f ∈ List.range' 1000 80} (List.range' 1002 78) tableAndPage := by
    refine ⟨List.nodup_range', ?_, ?_, ?_⟩
    · intro b f hb
      cases hb
      cases b <;> simp
    · intro x y f hx hy
      cases hx
      revert hy
      cases x <;> cases y <;> decide
    · intro f
      simp only [Set.mem_ofPred_eq, List.mem_range'_1, tableAndPage, Bool.exists_bool, Option.some.injEq, if_true,
        Bool.false_eq_true, if_false]
      show _ ↔ _ ∨ (1001 : Nat) = f ∨ (1000 : Nat) = f
      omega
  refine copyuvm_copy (k := ⟨List.range' 1002 78, _⟩) (usable_range' (by decide)) hsplit (by decide) ?_ ?_
  · intro v hv
    obtain rfl : v = 0 := by
      have : v < 1 := hv
      omega
    rfl
  · intro x f hx
    rcases loc_onePageProcess hx with rfl | rfl <;> simp

end Xv6.Vm
