import Xv6Threading.Vm.Spec

/-!
# Growing a space that others use too, and the space `exec` makes (`proc.c:171`, `vm.c:222`, `exec.c:39-68`)

`growproc` with a size that need not say what is mapped: what it returns, if it returns.

| here | there |
| --- | --- |
| `execLoad` | the loop over the program headers; a header is its `vaddr + memsz` |
| `execStack` | the guard page and the stack page, with `clearpteu` (`vm.c:302`) |
| `execImage` | `exec` up to its commit, with everything undone at `bad` |
-/

namespace Xv6.Vm

/-- How far `exec` gets: the file is found to be bad after some headers, the arguments do not fit on the stack,
or neither. -/
inductive Ending where
  | badFile
  | badArgs
  | commit
deriving DecidableEq

def clearpteu (pgd : Pgd) (v : Nat) : Pgd :=
  setPte pgd v { pte pgd v with flags := (pte pgd v).flags &&& ~~~PTE_U }

/-- None: out of memory, or a size out of range. -/
def execLoad (L : Layout) : List Nat → Space → Nat → Except Panic (Space × Option Nat)
  | [], s, sz => .ok (s, some sz)
  | top :: tops, s, sz =>
    match allocuvm L s sz top with
    | .error e => .error e
    | .ok (s, sz) => if sz = 0 then .ok (s, none) else execLoad L tops s sz

def execStack (L : Layout) (s : Space) (sz : Nat) : Except Panic (Space × Option Nat) :=
  match allocuvm L s (pageCount sz * 4096) (pageCount sz * 4096 + 8192) with
  | .error e => .error e
  | .ok (s, sz) =>
    if sz = 0 then .ok (s, none) else .ok ({ s with pgd := clearpteu s.pgd (sz / 4096 - 2) }, some sz)

def execImage (L : Layout) (k : Kmem) (tops : List Nat) (e : Ending) : Except Panic (Kmem × Option (Ppn × Pgd × Nat)) :=
  match setupkvm L k with
  | .error e => .error e
  | .ok (k, none) => .ok (k, none)
  | .ok (k, some (d, pgd)) =>
    match execLoad L tops ⟨k, pgd⟩ 0 with
    | .error e => .error e
    | .ok (s, none) => (freevm L s d).map fun k => (k, none)
    | .ok (s, some sz) =>
      if e = .badFile then (freevm L s d).map fun k => (k, none)
      else
        match execStack L s sz with
        | .error e => .error e
        | .ok (s, none) => (freevm L s d).map fun k => (k, none)
        | .ok (s, some sz) =>
          if e = .badArgs then (freevm L s d).map fun k => (k, none) else .ok (s.kmem, some (d, s.pgd, sz))

variable {X : Type} [DecidableEq X] {L : Layout} {U : Set Ppn} {c : X → Option Ppn} {s s' : Space} {sz sz' : Nat}
  {n r : Int}

/-! ## Growing -/

/-- `allocuvm`, whatever is mapped: nothing changes outside the pages between the two sizes, and if it succeeds
those are mapped. -/
theorem allocuvm_ok (hU : Usable L U) (h : s.Owns U c) {oldsz newsz r : Nat} (hold : oldsz < KERNBASE)
    (hs : allocuvm L s oldsz newsz = .ok (s', r)) :
    s'.Owns U c ∧ r < KERNBASE ∧
      (∀ w, w < pageCount oldsz ∨ pageCount newsz ≤ w → pte s'.pgd w = pte s.pgd w) ∧
      (r ≠ 0 → r = max oldsz newsz ∧ ∀ w, pageCount oldsz ≤ w → w < pageCount r → (pte s'.pgd w).flags = userFlags) := by
  by_cases hk : newsz ≥ KERNBASE
  · rw [allocuvm, if_pos hk] at hs
    cases hs
    exact ⟨h, by decide, fun _ _ => rfl, fun h0 => absurd rfl h0⟩
  by_cases hlt : newsz < oldsz
  · rw [allocuvm, if_neg hk, if_pos hlt] at hs
    cases hs
    exact ⟨h, hold, fun _ _ => rfl, fun _ => ⟨(Nat.max_eq_left hlt.le).symm, fun w h1 h2 => by omega⟩⟩
  rw [Nat.not_lt] at hlt
  rcases allocuvm_cases (L := L) hU h hlt (Nat.lt_of_not_le hk) with ⟨⟨p, hp⟩, -⟩ | ⟨t, m, ht, ho, hpte, hr⟩
  · rw [hp] at hs
    cases hs
  rw [ht] at hs
  cases hs
  rcases hr with ⟨rfl, -, hflags⟩ | ⟨rfl, -⟩
  · exact ⟨ho, Nat.lt_of_not_le hk, hpte, fun _ => ⟨(Nat.max_eq_right hlt).symm, hflags⟩⟩
  · exact ⟨ho, by decide, hpte, fun h0 => absurd rfl h0⟩

/-- All pages of `[0, sz)` are mapped. -/
def Covers (pgd : Pgd) (sz : Nat) : Prop := ∀ w, w < pageCount sz → present pgd w = true

/-- The new size is one that `growproc` can give: neither 0 as a size to shrink to, nor out of range. -/
def Fits (sz : Nat) (n : Int) : Prop := n ≠ 0 ∧ 0 ≤ sz + n ∧ sz + n < KERNBASE

/-- What `growproc` leaves, if it returns. The pages below both sizes, and those above both, are as before; and if
the pages below the caller's size were mapped, those below its new size are, except after shrinking to nothing. -/
structure Grown (U : Set Ppn) (c : X → Option Ppn) (s : Space) (sz : Nat) (n : Int) (s' : Space) (sz' : Nat) :
    Prop where
  owns : s'.Owns U c
  size : sz' < KERNBASE
  same : ¬ Fits sz n → s' = s ∧ sz' = sz
  kept : Fits sz n → ∀ w, w < pageCount sz ∧ w < pageCount (sz + n).toNat ∨
    pageCount sz ≤ w ∧ pageCount (sz + n).toNat ≤ w → pte s'.pgd w = pte s.pgd w
  covers : Fits sz n → ¬ (n < 0 ∧ sz + n = 0) → Covers s.pgd sz → Covers s'.pgd sz'

theorem grown_pos (hU : Usable L U) (h : s.Owns U c) (hsz : sz < KERNBASE)
    (hpos : 0 < n) (hhi : n < 2 ^ 31) (hs : growproc L s sz n = .ok (s', sz', r)) : Grown U c s sz n s' sz' := by
  have hk : KERNBASE = 2 ^ 31 := rfl
  have hadd : (addSz sz n : Int) = sz + n := addSz_eq (by omega) (by omega)
  rw [growproc, if_pos hpos] at hs
  cases ha : allocuvm L s sz (addSz sz n) with
  | error e =>
    rw [ha] at hs
    cases hs
  | ok q =>
    obtain ⟨t, m⟩ := q
    rw [ha] at hs
    obtain ⟨ho, hlt, hpte, hmap⟩ := allocuvm_ok hU h hsz ha
    have hts : s' = t ∧ sz' = if m = 0 then sz else m := by
      by_cases hm : m = 0 <;> simp only [Except.map, hm, if_true, if_false] at hs ⊢ <;> cases hs <;> exact ⟨rfl, rfl⟩
    obtain ⟨rfl, hsz'⟩ := hts
    refine ⟨ho, ?_, ?_, ?_, ?_⟩
    · rw [hsz']
      split <;> assumption
    · intro hfit
      have hbig : addSz sz n ≥ KERNBASE := by
        by_contra hlt
        exact hfit ⟨by omega, by omega, by omega⟩
      rw [allocuvm, if_pos hbig] at ha
      cases ha
      exact ⟨rfl, hsz'⟩
    · intro _ w hw
      apply hpte
      rw [← hadd, Int.toNat_natCast] at hw
      omega
    intro _ _ hold w hw
    by_cases hin : w < pageCount sz
    · rw [present, hpte w (.inl hin)]
      exact hold w hin
    rw [hsz'] at hw
    split at hw
    · exact absurd hw hin
    next hm =>
      exact present_of_flags ((hmap hm).2 w (Nat.le_of_not_lt hin) hw)

theorem grown_neg (hU : Usable L U) (h : s.Owns U c) (hsz : sz < KERNBASE)
    (hneg : n < 0) (hlo : -2 ^ 31 ≤ n) (hs : growproc L s sz n = .ok (s', sz', r)) : Grown U c s sz n s' sz' := by
  have hk : KERNBASE = 2 ^ 31 := rfl
  obtain ⟨t, ht, ho, hpte, -⟩ := deallocuvm_spec hU h (addSz sz n) hsz.le
  rw [growproc, if_neg (by omega), if_pos hneg, ht] at hs
  have hts : s' = t ∧ sz' = if min sz (addSz sz n) = 0 then sz else min sz (addSz sz n) := by
    by_cases hm : min sz (addSz sz n) = 0 <;> simp only [Except.map, hm, if_true, if_false] at hs ⊢ <;> cases hs <;>
      exact ⟨rfl, rfl⟩
  obtain ⟨rfl, hsz'⟩ := hts
  refine ⟨ho, ?_, ?_, ?_, ?_⟩
  · rw [hsz']
    split <;> omega
  · intro hfit
    have hwrap : KERNBASE ≤ addSz sz n := addSz_wraps hlo (by
      by_contra hge
      exact hfit ⟨by omega, by omega, by omega⟩)
    rw [deallocuvm, if_pos (by omega)] at ht
    refine ⟨(Prod.mk.inj (Except.ok.inj ht)).1.symm, ?_⟩
    rw [hsz', Nat.min_eq_left (by omega)]
    split <;> rfl
  · intro hfit w hw
    have hadd : (addSz sz n : Int) = sz + n := addSz_eq hfit.2.1 (by omega)
    apply hpte
    rw [← hadd, Int.toNat_natCast] at hw
    omega
  intro hfit hnz hold w hw
  have hadd : (addSz sz n : Int) = sz + n := addSz_eq hfit.2.1 (by omega)
  have hmin : min sz (addSz sz n) = addSz sz n := Nat.min_eq_right (by omega)
  rw [hsz', hmin, if_neg (by omega)] at hw
  rw [present, hpte w (.inl hw)]
  exact hold w (Nat.lt_of_lt_of_le hw (pageCount_le (by omega)))

theorem growproc_ok (hU : Usable L U) (h : s.Owns U c) (hsz : sz < KERNBASE)
    (hlo : -2 ^ 31 ≤ n) (hhi : n < 2 ^ 31) (hs : growproc L s sz n = .ok (s', sz', r)) :
    Grown U c s sz n s' sz' := by
  rcases Int.lt_trichotomy n 0 with hneg | rfl | hpos
  · exact grown_neg hU h hsz hneg hlo hs
  · cases hs
    exact ⟨h, hsz, fun _ => ⟨rfl, rfl⟩, fun hf => absurd rfl hf.1, fun hf => absurd rfl hf.1⟩
  · exact grown_pos hU h hsz hpos hhi hs

/-! ## `growproc` on a space of its own -/

/-- The call has given exactly the size it was asked for, or has failed and changed nothing. -/
def Atomic (s : Space) (sz : Nat) (n : Int) : Space × Nat × Int → Prop
  | (s', sz', r) => r = 0 ∧ (sz' : Int) = sz + n ∧ sz' < KERNBASE ∧ Maps s'.pgd sz' ∨
      r = -1 ∧ sz' = sz ∧ SameUser s.pgd s'.pgd

theorem not_sameUser_of_empty {pgd pgd' : Pgd} {sz : Nat} (hm : Maps pgd sz) (hsz : 0 < sz) (he : Maps pgd' 0) :
    ¬ SameUser pgd pgd' := by
  intro h
  have hpc : 0 < pageCount sz := by
    unfold pageCount
    omega
  have hold := (hm 0 (by decide)).2 hpc
  have hnew := (he 0 (by decide)).1.mt (by decide)
  rw [(h 0 (by decide)).1] at hnew
  exact hnew hold

/-- **When `growproc` is atomic.** For a process whose directory maps exactly the pages of `[0, sz)`, any `n`, and however
much memory is left: the call gives exactly `sz + n` or fails and changes nothing, if and only if it does not shrink, or
there is nothing to shrink, or something is left afterwards. -/
theorem growproc_atomic (hU : Usable L U) (h : s.Owns U c) {sz : Nat} {n : Int} (hsz : sz < KERNBASE)
    (hlo : -2 ^ 31 ≤ n) (hhi : n < 2 ^ 31) (hm : Maps s.pgd sz) :
    (∃ q, growproc L s sz n = .ok q ∧ Atomic s sz n q) ↔ 0 ≤ n ∨ sz = 0 ∨ 0 < sz + n := by
  rcases Int.lt_trichotomy n 0 with hneg | rfl | hpos
  · obtain ⟨s', sz', r, hs', -, hlt, hshrink, hzero, hwrap⟩ := growproc_neg hU h hsz hneg hlo hm
    rcases Int.lt_trichotomy (sz + n) 0 with hbelow | hnone | hsome
    · -- the sum wraps around, and `deallocuvm` returns the old size
      obtain ⟨hr, rfl, rfl⟩ := hwrap hbelow
      constructor
      · rintro ⟨q, hq, hat⟩
        obtain rfl := Except.ok.inj (hs'.symm.trans hq)
        rcases hat with ⟨-, hsum, -⟩ | ⟨hret, -⟩
        · omega
        · by_contra hno
          rw [hr, if_neg (by omega)] at hret
          cases hret
      · intro hor
        have h0 : sz' = 0 := by omega
        exact ⟨_, hs', .inr ⟨by rw [hr, if_pos h0], rfl, fun _ _ => ⟨rfl, fun _ => rfl⟩⟩⟩
    · obtain ⟨rfl, rfl, hempty⟩ := hzero hnone
      have hne : ¬ SameUser s.pgd s'.pgd := not_sameUser_of_empty hm (by omega) hempty
      constructor
      · rintro ⟨q, hq, hat⟩
        obtain rfl := Except.ok.inj (hs'.symm.trans hq)
        rcases hat with ⟨hret, -⟩ | ⟨-, -, hsame⟩
        · cases hret
        · exact absurd hsame hne
      · intro hor
        omega
    · obtain ⟨rfl, hsum, hmap⟩ := hshrink hsome
      exact ⟨fun _ => .inr (.inr hsome), fun _ => ⟨_, hs', .inl ⟨rfl, hsum, hlt, hmap⟩⟩⟩
  · exact ⟨fun _ => .inl (le_refl 0), fun _ => ⟨(s, sz, 0), rfl, .inl ⟨rfl, by omega, hsz, hm⟩⟩⟩
  · obtain ⟨s', sz', r, hs', -, hlt, hr⟩ := growproc_pos hU h hsz hpos hhi hm
    refine ⟨fun _ => .inl hpos.le, fun _ => ⟨_, hs', ?_⟩⟩
    exact hr.imp (fun ⟨h1, h2, h3⟩ => ⟨h1, h2, hlt, h3⟩) fun ⟨h1, h2, h3, _⟩ => ⟨h1, h2, h3⟩

def smallSpace : Space := ⟨⟨smallPages, fun _ _ => 0#8⟩, fun _ => none⟩

theorem smallSpace_owns : smallSpace.Owns {f | f ∈ smallPages} fun _ : Unit => none := owns_empty small_split

theorem smallSpace_maps : Maps smallSpace.pgd 0 := by
  intro w _
  simp [smallSpace, present, pte_empty, present_zero, pageCount]

theorem growproc_atomic_small : ∃ q, growproc smallLayout smallSpace 0 8192 = .ok q ∧ Atomic smallSpace 0 8192 q := by
  exact (growproc_atomic small_usable smallSpace_owns (by decide) (by decide) (by decide) smallSpace_maps).2
    (.inl (by decide))

/-- A process of one page calls `sbrk(-4096)`: the page is gone, and the call fails. It calls `sbrk(-4097)`: nothing happens,
and the call succeeds. -/
theorem growproc_not_atomic : ∃ s : Space, s.Owns {f | f ∈ smallPages} (fun _ : Unit => none) ∧ Maps s.pgd 4096 ∧
    (∃ s', growproc smallLayout s 4096 (-4096) = .ok (s', 4096, -1) ∧ present s.pgd 0 = true ∧
      present s'.pgd 0 = false) ∧
    growproc smallLayout s 4096 (-4097) = .ok (s, 4096, 0) := by
  obtain ⟨s, sz, r, hs, ho, -, hr⟩ := growproc_pos (n := 4096) small_usable smallSpace_owns (by decide) (by decide)
    (by decide) smallSpace_maps
  have hret : (growproc smallLayout smallSpace 0 4096).map Prod.snd = .ok (4096, 0) := by decide
  rw [hs] at hret
  obtain ⟨rfl, rfl⟩ := Prod.mk.inj (Except.ok.inj hret)
  have hm : Maps s.pgd 4096 := by
    rcases hr with ⟨-, -, hm⟩ | ⟨hbad, -⟩
    · exact hm
    · cases hbad
  refine ⟨s, ho, hm, ?_, ?_⟩
  · obtain ⟨s', sz', r', hs', -, -, -, hzero, -⟩ := growproc_neg (n := -4096) small_usable ho (by decide) (by decide)
      (by decide) hm
    obtain ⟨rfl, rfl, hempty⟩ := hzero (by decide)
    refine ⟨s', hs', (hm 0 (by decide)).2 (by decide), ?_⟩
    have := (hempty 0 (by decide)).1.mt (by decide)
    simpa using this
  · obtain ⟨s', sz', r', hs', -, -, -, -, hwrap⟩ := growproc_neg (n := -4097) small_usable ho (by decide) (by decide)
      (by decide) hm
    obtain ⟨rfl, rfl, rfl⟩ := hwrap (by decide)
    exact hs'

/-! ## The image `exec` builds -/

theorem allocuvm_covers (hU : Usable L U) (h : s.Owns U c) {oldsz newsz r : Nat} (hold : oldsz < KERNBASE)
    (hc : Covers s.pgd oldsz) (hs : allocuvm L s oldsz newsz = .ok (s', r)) :
    s'.Owns U c ∧ r < KERNBASE ∧ (r ≠ 0 → Covers s'.pgd r) := by
  obtain ⟨ho, hr, hpte, hmap⟩ := allocuvm_ok hU h hold hs
  refine ⟨ho, hr, ?_⟩
  intro h0 w hw
  by_cases hlt : w < pageCount oldsz
  · rw [present, hpte w (.inl hlt)]
    exact hc w hlt
  · exact present_of_flags ((hmap h0).2 w (Nat.le_of_not_lt hlt) hw)

theorem execLoad_ok (hU : Usable L U) : ∀ (tops : List Nat) {s s' : Space} {sz : Nat} {r : Option Nat}
    (_ : s.Owns U c) (_ : sz < KERNBASE) (_ : Covers s.pgd sz) (_ : execLoad L tops s sz = .ok (s', r)),
    s'.Owns U c ∧ ∀ sz', r = some sz' → sz' < KERNBASE ∧ Covers s'.pgd sz' := by
  intro tops
  induction tops with
  | nil =>
    intro s s' sz r h hsz hc hs
    cases hs
    refine ⟨h, ?_⟩
    rintro sz' ⟨⟩
    exact ⟨hsz, hc⟩
  | cons top tops ih =>
    intro s s' sz r h hsz hc hs
    rw [execLoad] at hs
    split at hs
    · cases hs
    rename_i t m ha
    obtain ⟨ho, hm, hcov⟩ := allocuvm_covers hU h hsz hc ha
    split at hs
    · cases hs
      exact ⟨ho, by rintro sz' ⟨⟩⟩
    next hne =>
      exact ih ho hm (hcov hne) hs

theorem pageCount_mul (k : Nat) : pageCount (k * 4096) = k := by
  unfold pageCount
  omega

/-- Clearing `PTE_U` changes no address and unmaps nothing. -/
theorem pte_clearpteu (pgd : Pgd) (v w : Nat) :
    (pte (clearpteu pgd v) w).ppn = (pte pgd w).ppn ∧ present (clearpteu pgd v) w = present pgd w := by
  have hpte : pte (clearpteu pgd v) w =
      if w = v ∧ (walk pgd v).isSome then { pte pgd v with flags := (pte pgd v).flags &&& ~~~PTE_U } else pte pgd w := by
    rw [clearpteu, pte, walk_setPte]
    by_cases e : w = v
    · subst e
      cases hw : walk pgd w <;> simp [pte, hw]
    · simp [e, pte]
  unfold present
  rw [hpte]
  split
  next h =>
    rw [h.1]
    refine ⟨rfl, ?_⟩
    rw [Pte.present, BitVec.getLsbD_and, show (~~~PTE_U).getLsbD 0 = true from rfl, Bool.and_true]
    rfl
  · exact ⟨rfl, rfl⟩

theorem loc_clearpteu (pgd : Pgd) (v : Nat) (x : Spot) : loc (clearpteu pgd v) x = loc pgd x := by
  cases x with
  | table i => simp only [loc, clearpteu, setPte_page]
  | user w => simp only [loc, (pte_clearpteu pgd v w).1, (pte_clearpteu pgd v w).2]

theorem execStack_ok (hU : Usable L U) (h : s.Owns U c) {sz : Nat} {r : Option Nat} (hc : Covers s.pgd sz)
    (hs : execStack L s sz = .ok (s', r)) :
    s'.Owns U c ∧ ∀ sz', r = some sz' → sz' < KERNBASE ∧ Covers s'.pgd sz' := by
  unfold execStack at hs
  by_cases hk : pageCount sz * 4096 < KERNBASE
  · split at hs
    · cases hs
    next t m ha =>
      have hc' : Covers s.pgd (pageCount sz * 4096) := by
        intro w hw
        rw [pageCount_mul] at hw
        exact hc w hw
      obtain ⟨ho, hm, hcov⟩ := allocuvm_covers hU h hk hc' ha
      split at hs
      · cases hs
        exact ⟨ho, by rintro sz' ⟨⟩⟩
      rename_i hne
      cases hs
      refine ⟨ho.of_loc rfl (loc_clearpteu t.pgd _), ?_⟩
      rintro sz' ⟨⟩
      refine ⟨hm, fun w hw => ?_⟩
      exact ((pte_clearpteu t.pgd _ w).2).trans (hcov hne w hw)
  · rw [allocuvm, if_pos (by omega)] at hs
    cases hs
    exact ⟨h, by rintro sz' ⟨⟩⟩

/-- What a failed `exec` has built is freed; what a successful one has built covers its size. -/
theorem execImage_ok (hU : Usable L U) {k k' : Kmem} (h : Split U k.free c) {tops : List Nat} {e : Ending}
    {r : Option (Ppn × Pgd × Nat)} (hs : execImage L k tops e = .ok (k', r)) :
    match r with
    | none => Split U k'.free c
    | some (d, pgd, sz) =>
      e = .commit ∧ Space.Owns U (withHeld c (some d)) ⟨k', pgd⟩ ∧ sz < KERNBASE ∧ Covers pgd sz := by
  obtain ⟨k1, b, hb, hbuilt⟩ := setupkvm_spec hU h
  unfold execImage at hs
  rw [hb] at hs
  cases b with
  | none =>
    cases hs
    exact hbuilt
  | some q =>
    obtain ⟨d, pgd⟩ := q
    obtain ⟨ho, -⟩ := hbuilt
    have hundo : ∀ {t : Space}, t.Owns U (withHeld c (some d)) →
        (freevm L t d).map (fun k => (k, (none : Option (Ppn × Pgd × Nat)))) = .ok (k', r) →
        r = none ∧ Split U k'.free c := by
      intro t ht hf
      obtain ⟨k2, hk2, hsplit⟩ := freevm_held hU ht
      rw [hk2] at hf
      cases hf
      exact ⟨rfl, hsplit⟩
    have hcov0 : Covers pgd 0 := by
      intro w hw
      simp [pageCount] at hw
    dsimp only at hs
    split at hs
    · cases hs
    next t hl =>
      obtain ⟨ht, -⟩ := execLoad_ok hU tops ho (by decide) hcov0 hl
      obtain ⟨rfl, hsplit⟩ := hundo ht hs
      exact hsplit
    next t sz hl =>
      obtain ⟨ht, hsz⟩ := execLoad_ok hU tops ho (by decide) hcov0 hl
      obtain ⟨-, hcov⟩ := hsz sz rfl
      split at hs
      · obtain ⟨rfl, hsplit⟩ := hundo ht hs
        exact hsplit
      rename_i hfile
      split at hs
      · cases hs
      next t2 hst =>
        obtain ⟨ht2, -⟩ := execStack_ok hU ht hcov hst
        obtain ⟨rfl, hsplit⟩ := hundo ht2 hs
        exact hsplit
      next t2 sz2 hst =>
        obtain ⟨ht2, hsz2⟩ := execStack_ok hU ht hcov hst
        split at hs
        · obtain ⟨rfl, hsplit⟩ := hundo ht2 hs
          exact hsplit
        rename_i hargs
        cases hs
        have hcommit : e = .commit := by cases e <;> simp_all
        exact ⟨hcommit, ht2, hsz2 sz2 rfl⟩

end Xv6.Vm
