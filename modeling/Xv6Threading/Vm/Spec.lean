import Xv6Threading.Lib.Ownership
import Xv6Threading.Vm.Table

/-!
# What the page-table code does

A page directory is read through `pte`: the entry of a virtual page, zero where there is no page
table. Every function of `Vm.Table` gets one specification in those terms, together with the fact that
it keeps the split of physical memory: each page of `U` is in the free list, or at exactly one `Spot`
of the directory, or at one of the other places `c`. A page that has been allocated and not mapped yet
is at a place of `c`.
-/

namespace Xv6.Vm

open Function

def pte (pgd : Pgd) (v : Nat) : Pte := (walk pgd v).getD .zero

def present (pgd : Pgd) (v : Nat) : Bool := (pte pgd v).present

/-- Where a directory keeps physical pages: its page tables, and what it maps below `KERNBASE`. -/
inductive Spot where
  | table (i : Nat)
  | user (v : Nat)
deriving DecidableEq

def loc (pgd : Pgd) : Spot → Option Ppn
  | .table i => if i < 1024 then (pgd i).map Ptab.page else none
  | .user v => if v < UPAGES ∧ present pgd v = true then some (pte pgd v).ppn else none

section Entries

theorem present_zero : Pte.zero.present = false := rfl

variable {v : Nat} {pgd : Pgd}

theorem pte_of_none (h : walk pgd v = none) : pte pgd v = .zero := by simp [pte, h]

theorem pte_of_some {e : Pte} (h : walk pgd v = some e) : pte pgd v = e := by simp [pte, h]

theorem present_of_none (h : walk pgd v = none) : present pgd v = false := by
  rw [present, pte_of_none h]
  rfl

theorem any_present (pgd : Pgd) (v : Nat) : (walk pgd v).any Pte.present = present pgd v := by
  cases h : walk pgd v with
  | none => simp [present_of_none h]
  | some e => simp [present, pte_of_some h]

/-- A missing table is missing for its whole range. -/
theorem walk_eq_none {w : Nat} (h : walk pgd v = none) (hw : w / 1024 = v / 1024) : walk pgd w = none := by
  simpa [walk, hw] using h

theorem walk_setPte (pgd : Pgd) (v w : Nat) (e : Pte) :
    walk (setPte pgd v e) w = if w = v then (walk pgd v).map fun _ => e else walk pgd w := by
  by_cases h : w / 1024 = v / 1024
  · by_cases hw : w = v
    · subst hw
      cases ht : pgd (w / 1024) <;> simp [walk, setPte, ht]
    · have hm : w % 1024 ≠ v % 1024 := by omega
      cases ht : pgd (v / 1024) <;> simp [walk, setPte, h, ht, hm, hw]
  · have hw : w ≠ v := by
      rintro rfl
      exact h rfl
    simp [walk, setPte, h, hw]

theorem pte_setPte (h : (walk pgd v).isSome) (w : Nat) (e : Pte) :
    pte (setPte pgd v e) w = if w = v then e else pte pgd w := by
  obtain ⟨e', he⟩ := Option.isSome_iff_exists.1 h
  rw [pte, walk_setPte]
  split
  · simp [he]
  · rfl

theorem setPte_page (pgd : Pgd) (v : Nat) (e : Pte) (i : Nat) :
    (setPte pgd v e i).map Ptab.page = (pgd i).map Ptab.page := by
  by_cases h : i = v / 1024
  · subst h
    cases ht : pgd (v / 1024) <;> simp [setPte, ht]
  · simp [setPte, h]

end Entries

theorem loc_user {pgd pgd' : Pgd} {w : Nat} (h : pte pgd' w = pte pgd w) :
    loc pgd' (.user w) = loc pgd (.user w) := by
  simp only [loc]
  unfold present
  rw [h]

theorem loc_setPte {pgd : Pgd} {v : Nat} (hw : (walk pgd v).isSome) (e : Pte) :
    loc (setPte pgd v e) = update (loc pgd) (.user v) (if v < UPAGES ∧ e.present = true then some e.ppn else none) := by
  funext x
  cases x with
  | table i => simp [loc, setPte_page]
  | user w =>
    by_cases h : w = v
    · subst h
      simp [loc, present, pte_setPte hw]
    · rw [update_of_ne fun he => h (Spot.user.inj he)]
      exact loc_user (by rw [pte_setPte hw, if_neg h])

/-- Pages have been taken from the free list, and no others have changed. -/
structure Draws (k k' : Kmem) : Prop where
  free : k'.free ⊆ k.free
  ram : ∀ f, f ∉ k.free → k'.ram f = k.ram f

theorem Draws.refl (k : Kmem) : Draws k k := ⟨fun _ => id, fun _ _ => rfl⟩

variable {k : Kmem}

theorem Draws.trans {k' k'' : Kmem} (h : Draws k k') (h' : Draws k' k'') : Draws k k'' :=
  ⟨fun _ hf => h.free (h'.free hf), fun f hf => (h'.ram f fun hf' => hf (h.free hf')).trans (h.ram f hf)⟩

variable {f : Ppn}

/-- One page is taken and filled. -/
theorem draws_kalloc {free : List Ppn} (h : k.free = f :: free) (p : Page) : Draws k ⟨free, update k.ram f p⟩ := by
  refine ⟨fun g hg => ?_, fun g hg => update_of_ne ?_ _ _⟩
  · rw [h]
    exact List.mem_cons_of_mem f hg
  · rintro rfl
    rw [h] at hg
    exact hg List.mem_cons_self

section Spec

variable {X : Type} [DecidableEq X] {U : Set Ppn} {c : X → Option Ppn} {s s' : Space} {v : Nat} {x : X} {e : Pte}

/-- Physical memory is split between the free list, the places `c`, and the directory. -/
def Space.Owns (U : Set Ppn) (c : X → Option Ppn) (s : Space) : Prop :=
  Split U s.kmem.free (Sum.elim c (loc s.pgd))

omit [DecidableEq X] in
theorem Space.Owns.of_loc (h : s.Owns U c) (hk : s'.kmem.free = s.kmem.free)
    (hl : ∀ x, loc s'.pgd x = loc s.pgd x) : s'.Owns U c := by
  have hl' : loc s'.pgd = loc s.pgd := funext hl
  unfold Space.Owns
  rw [hk, hl']
  exact h

/-- `walkpgdir(.., 1)` fails only when memory is exhausted; otherwise there is a table, and every entry
is as before. -/
theorem walkAlloc_spec (h : s.Owns U c) (hv : v < 1048576) :
    (walkAlloc s v = none ∧ s.kmem.free = []) ∨ ∃ s', walkAlloc s v = some s' ∧ s'.Owns U c ∧ Draws s.kmem s'.kmem ∧
      s.kmem.free.length ≤ s'.kmem.free.length + 1 ∧ (walk s'.pgd v).isSome ∧ ∀ w, pte s'.pgd w = pte s.pgd w := by
  unfold walkAlloc
  cases ht : s.pgd (v / 1024) with
  | some t => exact .inr ⟨s, rfl, h, .refl _, Nat.le_succ _, by simp [walk, ht], fun _ => rfl⟩
  | none =>
    unfold kalloc
    cases hf : s.kmem.free with
    | nil => exact .inl ⟨rfl, rfl⟩
    | cons f free =>
      right
      have hpte : ∀ w, pte (update s.pgd (v / 1024) (some ⟨f, fun _ => .zero⟩)) w = pte s.pgd w := by
        intro w
        by_cases hw : w / 1024 = v / 1024
        · simp [pte, walk, hw, ht]
        · simp [pte, walk, hw]
      refine ⟨_, rfl, ?_, draws_kalloc hf _, Nat.le_refl _, by simp [walk], hpte⟩
      have h' : Split U (f :: free) (Sum.elim c (loc s.pgd)) := hf ▸ h
      have hsplit := h'.take (x := Sum.inr (Spot.table (v / 1024))) (by simp [loc, ht])
      have hloc : update (loc s.pgd) (.table (v / 1024)) (some f) =
          loc (update s.pgd (v / 1024) (some ⟨f, fun _ => .zero⟩)) := by
        funext x
        rcases x with i | w
        · have hlt : v / 1024 < 1024 := by omega
          by_cases hi : i = v / 1024
          · subst hi
            simp [loc, hlt]
          · simp [loc, hi]
        · simpa using (loc_user (hpte w)).symm
      rw [Sum.update_elim_inr, hloc] at hsplit
      exact hsplit

omit [DecidableEq X] in
/-- Setting an entry that does not concern physical pages: a kernel mapping, or one that is not present
before and after. -/
theorem owns_setPte (h : s.Owns U c) (hw : (walk s.pgd v).isSome)
    (hv : UPAGES ≤ v ∨ present s.pgd v = false ∧ e.present = false) :
    Space.Owns U c { s with pgd := setPte s.pgd v e } := by
  have hold : loc s.pgd (.user v) = none := if_neg fun hin => hv.elim (Nat.not_le_of_lt hin.1) fun h => by simp_all
  have hnew : ¬ (v < UPAGES ∧ e.present = true) := fun hin => hv.elim (Nat.not_le_of_lt hin.1) fun h => by simp_all
  refine h.of_loc rfl fun x => ?_
  rw [loc_setPte hw, if_neg hnew, ← hold, update_eq_self]

/-- A held page is mapped. -/
theorem owns_mapUser (h : s.Owns U c) (hx : c x = some f) (hv : v < UPAGES)
    (hw : (walk s.pgd v).isSome) (hnp : present s.pgd v = false) (perm : BitVec 12) :
    Space.Owns U (update c x none) { s with pgd := setPte s.pgd v ⟨f, perm ||| PTE_P⟩ } := by
  have hp : (⟨f, perm ||| PTE_P⟩ : Pte).present = true := by simp [Pte.present]
  have hsplit := Split.move h (x := .inl x) (y := .inr (.user v)) (f := f) hx (by simp [loc, hnp])
  rw [Sum.update_elim_inl, Sum.update_elim_inr] at hsplit
  unfold Space.Owns
  rw [loc_setPte hw, if_pos ⟨hv, hp⟩]
  exact hsplit

/-- `mappages` of one user page that is not mapped yet, for a held page. -/
theorem mapPage_spec (h : s.Owns U c) (hx : c x = some f) (hv : v < UPAGES)
    (hnp : present s.pgd v = false) (perm : BitVec 12) :
    (mappages 1 s v f perm = .ok (s, false) ∧ s.kmem.free = []) ∨
    ∃ s', mappages 1 s v f perm = .ok (s', true) ∧ s'.Owns U (update c x none) ∧ Draws s.kmem s'.kmem ∧
      s.kmem.free.length ≤ s'.kmem.free.length + 1 ∧
      ∀ w, pte s'.pgd w = if w = v then ⟨f, perm ||| PTE_P⟩ else pte s.pgd w := by
  rcases walkAlloc_spec h (v := v) (by simp only [UPAGES] at hv; omega) with
    ⟨hn, hfree⟩ | ⟨s', hs', ho, hd, hlen, hsome, hpte⟩
  · exact .inl ⟨by simp [mappages, hn], hfree⟩
  right
  have hnp' : present s'.pgd v = false := by simpa [present, hpte] using hnp
  refine ⟨_, by simp [mappages, hs', any_present, hnp'], owns_mapUser ho hx hv hsome hnp' perm, hd, hlen, ?_⟩
  intro w
  simp only [pte_setPte hsome, hpte]

/-- `mappages` in the kernel part, where nothing is mapped yet. -/
theorem mapKernel_spec (n : Nat) : ∀ {s : Space} {v : Nat} (_ : s.Owns U c) (_ : UPAGES ≤ v) (_ : v + n ≤ 1048576)
    (_ : ∀ w, v ≤ w → present s.pgd w = false) (pa : Ppn) (perm : BitVec 12),
    ∃ s' b, mappages n s v pa perm = .ok (s', b) ∧ s'.Owns U c ∧ Draws s.kmem s'.kmem ∧
      (b = false → s'.kmem.free = []) ∧ ∀ w, w < v ∨ v + n ≤ w → pte s'.pgd w = pte s.pgd w := by
  induction n with
  | zero => exact fun {s v} h _ _ _ pa perm => ⟨s, true, rfl, h, .refl _, nofun, fun _ _ => rfl⟩
  | succ n ih =>
    intro s v h hv hvn hnp pa perm
    rcases walkAlloc_spec h (v := v) (by omega) with ⟨hn, hfree⟩ | ⟨s', hs', ho, hd, -, hsome, hpte⟩
    · exact ⟨s, false, by simp [mappages, hn], h, .refl _, fun _ => hfree, fun _ _ => rfl⟩
    have hnp' : ∀ w, v ≤ w → present s'.pgd w = false := by
      intro w hw
      simpa [present, hpte] using hnp w hw
    have ho' := owns_setPte ho hsome (e := ⟨pa, perm ||| PTE_P⟩) (.inl hv)
    obtain ⟨s'', b, hs'', ho'', hd'', hb, hpte''⟩ := ih ho' (Nat.le_succ_of_le hv) (by omega) (fun w hw => by
      have : w ≠ v := by omega
      simpa [present, pte_setPte hsome, this] using hnp' w (by omega)) (pa + 1) perm
    refine ⟨s'', b, by simpa [mappages, hs', any_present, hnp' v (Nat.le_refl v)] using hs'', ho'', hd.trans hd'', hb, ?_⟩
    intro w hw
    have hwv : w ≠ v := by omega
    rw [hpte'' w (by omega), pte_setPte hsome, if_neg hwv, hpte]

/-- Regions in ascending order, from page `lo` to the top of memory. -/
def Ascending (lo : Nat) : List (Nat × Nat × Ppn × BitVec 12) → Prop
  | [] => True
  | (v, n, _, _) :: ks => lo ≤ v ∧ v + n ≤ 1048576 ∧ Ascending (v + n) ks

theorem ascending_kmap (L : Layout) : Ascending UPAGES (kmap L) := by
  have h1 := L.extmem_lt
  have h2 := L.data_lt
  simp only [kmap, Ascending, and_true, UPAGES]
  omega

theorem mapAll_spec : ∀ (ks : List (Nat × Nat × Ppn × BitVec 12)) {s : Space} {lo : Nat} (_ : s.Owns U c)
    (_ : UPAGES ≤ lo) (_ : Ascending lo ks) (_ : ∀ w, lo ≤ w → present s.pgd w = false),
    ∃ s' b, mapAll s ks = .ok (s', b) ∧ s'.Owns U c ∧ Draws s.kmem s'.kmem ∧ (b = false → s'.kmem.free = []) ∧
      ∀ w, w < lo → pte s'.pgd w = pte s.pgd w
  | [], s, lo, h, _, _, _ => ⟨s, true, rfl, h, .refl _, nofun, fun _ _ => rfl⟩
  | (v, n, pa, perm) :: ks, s, lo, h, hlo, ha, hnp => by
    obtain ⟨hv, hvn, ha⟩ := ha
    obtain ⟨s', b, hs', ho', hd', hb, hpte'⟩ := mapKernel_spec n h (Nat.le_trans hlo hv) hvn
      (fun w hw => hnp w (Nat.le_trans hv hw)) pa perm
    cases b with
    | false => exact ⟨s', false, by simp [mapAll, hs'], ho', hd', hb, fun w hw => hpte' w (by omega)⟩
    | true =>
      obtain ⟨s'', b, hs'', ho'', hd'', hb, hpte''⟩ := mapAll_spec ks ho' (by omega) ha fun w hw => by
        simpa [present, hpte' w (.inr hw)] using hnp w (by omega)
      refine ⟨s'', b, by simp [mapAll, hs', hs''], ho'', hd'.trans hd'', hb, ?_⟩
      intro w hw
      rw [hpte'' w (by omega), hpte' w (by omega)]

/-! ## Freeing -/

/-- `kfree` accepts every page of `U`. -/
def Usable (L : Layout) (U : Set Ppn) : Prop := ∀ f ∈ U, L.owns f = true ∧ f ≠ 0

variable {L : Layout} {oldsz newsz : Nat} {pgd : Pgd} {d : Ppn}

omit [DecidableEq X] in
theorem kfree_spec (hU : Usable L U) (hf : f ∈ U) (k : Kmem) :
    ∃ k', kfree L k f = .ok k' ∧ k'.free = f :: k.free :=
  ⟨_, by rw [kfree, if_pos (hU f hf).1], rfl⟩

theorem owns_unmap (h : s.Owns U c) (hv : v < UPAGES) (hp : present s.pgd v = true)
    (hk : k.free = (pte s.pgd v).ppn :: s.kmem.free) : Space.Owns U c ⟨k, setPte s.pgd v .zero⟩ := by
  have hw : (walk s.pgd v).isSome := by
    cases e : walk s.pgd v with
    | none => simp [present_of_none e] at hp
    | some _ => rfl
  have hsplit := Split.give h (x := .inr (.user v)) (f := (pte s.pgd v).ppn) (by simp [loc, hv, hp])
  rw [Sum.update_elim_inr, ← hk] at hsplit
  unfold Space.Owns
  rw [loc_setPte hw, if_neg (by simp [present_zero])]
  exact hsplit

/-- The loop frees what is mapped from `v` to `to_` and touches nothing else; skipping a missing table
skips only entries that map nothing. -/
theorem deallocLoop_spec (hU : Usable L U) {to_ : Nat} (hto : to_ ≤ UPAGES) (n : Nat) :
    ∀ {s : Space} {v : Nat} (_ : s.Owns U c) (_ : to_ - v ≤ n), ∃ s', deallocLoop L n s v to_ = .ok s' ∧
      s'.Owns U c ∧
      (∀ w, w < v ∨ to_ ≤ w → pte s'.pgd w = pte s.pgd w) ∧ ∀ w, v ≤ w → w < to_ → present s'.pgd w = false := by
  induction n with
  | zero => exact fun {s v} h hn => ⟨s, rfl, h, fun _ _ => rfl, fun w h1 h2 => by omega⟩
  | succ n ih =>
    intro s v h hn
    by_cases hv : v < to_
    · cases hw : walk s.pgd v with
      | none =>
        obtain ⟨s', hs', ho, hpte, hnp⟩ := ih (v := (v / 1024 + 1) * 1024) h (by omega)
        refine ⟨s', by simp [deallocLoop, hv, hw, hs'], ho, fun w hw' => hpte w (by omega), ?_⟩
        intro w h1 h2
        by_cases hlt : w < (v / 1024 + 1) * 1024
        · have : walk s.pgd w = none := walk_eq_none hw (by omega)
          rw [present, hpte w (.inl hlt), pte_of_none this]
          rfl
        · exact hnp w (by omega) h2
      | some e =>
        have hpe : present s.pgd v = e.present := by rw [present, pte_of_some hw]
        by_cases hp : e.present = true
        · have hloc : loc s.pgd (.user v) = some e.ppn := by
            simp [loc, hpe, hp, pte_of_some hw, Nat.lt_of_lt_of_le hv hto]
          have hmem : e.ppn ∈ U := Split.mem_of_loc h (x := .inr (.user v)) hloc
          obtain ⟨k, hk, hfree⟩ := kfree_spec hU hmem s.kmem
          have ho := owns_unmap h (Nat.lt_of_lt_of_le hv hto) (hpe.trans hp)
            (k := k) (by rw [hfree, pte_of_some hw])
          obtain ⟨s', hs', ho', hpte, hnp⟩ := ih (v := v + 1) ho (by omega)
          have hset := pte_setPte (show (walk s.pgd v).isSome by simp [hw])
          refine ⟨s', ?_, ho', ?_, ?_⟩
          · simp [deallocLoop, hv, hw, hp, (hU _ hmem).2, hk, hs']
          · intro w hw'
            have : w ≠ v := by omega
            rw [hpte w (by omega), hset, if_neg this]
          intro w h1 h2
          by_cases e' : w = v
          · subst e'
            rw [present, hpte w (by omega), hset, if_pos rfl]
            rfl
          · exact hnp w (by omega) h2
        obtain ⟨s', hs', ho', hpte, hnp⟩ := ih (v := v + 1) h (by omega)
        refine ⟨s', by simp [deallocLoop, hv, hw, hp, hs'], ho', fun w hw' => hpte w (by omega), ?_⟩
        intro w h1 h2
        by_cases e' : w = v
        · subst e'
          rw [present, hpte w (by omega), ← present, hpe]
          simpa using hp
        · exact hnp w (by omega) h2
    · exact ⟨s, by simp [deallocLoop, hv], h, fun _ _ => rfl, fun w h1 h2 => by omega⟩

theorem pageCount_le {a b : Nat} (h : a ≤ b) : pageCount a ≤ pageCount b := by
  unfold pageCount
  omega

theorem pageCount_le_upages {a : Nat} (h : a ≤ KERNBASE) : pageCount a ≤ UPAGES := pageCount_le h

/-- `deallocuvm` unmaps exactly the pages between the two sizes, or does nothing. -/
theorem deallocuvm_spec (hU : Usable L U) (h : s.Owns U c) {oldsz : Nat} (newsz : Nat) (hold : oldsz ≤ KERNBASE) :
    ∃ s', deallocuvm L s oldsz newsz = .ok (s', min oldsz newsz) ∧ s'.Owns U c ∧
      (∀ w, w < pageCount newsz ∨ pageCount oldsz ≤ w → pte s'.pgd w = pte s.pgd w) ∧
      ∀ w, pageCount newsz ≤ w → w < pageCount oldsz → present s'.pgd w = false := by
  by_cases hle : newsz ≥ oldsz
  · refine ⟨s, by rw [deallocuvm, if_pos hle, Nat.min_eq_left hle], h, fun _ _ => rfl, ?_⟩
    intro w h1 h2
    have := pageCount_le hle
    omega
  obtain ⟨s', hs', ho, hpte, hnp⟩ := deallocLoop_spec hU (pageCount_le_upages hold) _ h
    (Nat.le_refl (pageCount oldsz - pageCount newsz))
  refine ⟨s', ?_, ho, hpte, hnp⟩
  rw [deallocuvm, if_neg hle, hs', Nat.min_eq_right (by omega)]
  rfl

/-- The tables that `freevm` has still to free. -/
def tablesLeft (pgd : Pgd) (is : List Nat) (i : Nat) : Option Ppn := if i ∈ is then (pgd i).map Ptab.page else none

theorem tablesLeft_cons {i : Nat} {is : List Nat} (hi : i ∉ is) :
    tablesLeft pgd is = update (tablesLeft pgd (i :: is)) i none := by
  funext j
  by_cases e : j = i
  · subst e
    simp [tablesLeft, hi]
  · simp [tablesLeft, e]

theorem freeTables_spec (hU : Usable L U) (pgd : Pgd) : ∀ (is : List Nat) {k : Kmem} (_ : is.Nodup)
    (_ : Split U k.free (Sum.elim c (tablesLeft pgd is))), ∃ k', freeTables L pgd k is = .ok k' ∧ Split U k'.free c
  | [], k, _, h => by
    refine ⟨k, rfl, h.restrict Sum.inl (fun _ _ => Sum.inl.inj) (fun _ => rfl) ?_⟩
    rintro (x | i) f hx
    · exact ⟨x, rfl⟩
    · simp [tablesLeft] at hx
  | i :: is, k, hnd, h => by
    obtain ⟨hi, hnd⟩ := List.nodup_cons.1 hnd
    have hfree {k : Kmem} := freeTables_spec hU pgd is (k := k) hnd
    rw [tablesLeft_cons hi] at hfree
    have hloc : tablesLeft pgd (i :: is) i = (pgd i).map Ptab.page := by simp [tablesLeft]
    cases ht : pgd i with
    | none =>
      rw [ht, Option.map_none] at hloc
      rw [← hloc, update_eq_self] at hfree
      obtain ⟨k', hk', hs⟩ := hfree h
      exact ⟨k', by simp [freeTables, ht, hk'], hs⟩
    | some t =>
      rw [ht, Option.map_some] at hloc
      obtain ⟨k1, hk1, hk1f⟩ := kfree_spec hU (Split.mem_of_loc h (x := .inr i) hloc) k
      have hgive := Split.give h (x := .inr i) hloc
      rw [Sum.update_elim_inr, ← hk1f] at hgive
      obtain ⟨k', hk', hs⟩ := hfree hgive
      exact ⟨k', by simp [freeTables, ht, hk1, Except.bind, hk'], hs⟩

/-- `freevm` gives back the whole directory, and the page of the directory itself. -/
theorem freevm_spec (hU : Usable L U) (h : s.Owns U c) (hx : c x = some d) :
    ∃ k, freevm L s d = .ok k ∧ Split U k.free (update c x none) := by
  obtain ⟨s', hs', ho, -, hnp⟩ := deallocuvm_spec hU h 0 (Nat.le_refl KERNBASE)
  have htab : Split U s'.kmem.free (Sum.elim c (tablesLeft s'.pgd (List.range 1024))) := by
    apply Split.restrict ho (Sum.map id Spot.table)
    · rintro (y | i) (z | j) e <;> simp_all
    · rintro (y | i)
      · rfl
      · simp [loc, tablesLeft]
    rintro (y | i | w) f hy
    · exact ⟨.inl y, rfl⟩
    · exact ⟨.inr i, rfl⟩
    -- no user page is left
    simp only [Sum.elim_inr, loc] at hy
    split at hy
    next hw =>
      rw [hnp w (Nat.zero_le _) hw.1] at hw
      simp at hw
    · cases hy
  obtain ⟨k1, hk1, hsp⟩ := freeTables_spec hU s'.pgd (List.range 1024) List.nodup_range htab
  obtain ⟨k2, hk2, hfree⟩ := kfree_spec hU (hsp.mem_of_loc hx) k1
  refine ⟨k2, by simp [freevm, hs', Except.bind, hk1, hk2], ?_⟩
  rw [hfree]
  exact hsp.give hx

/-! ## Growing and copying -/

/-- The places `c` and one more, for a page that has been allocated and is not mapped yet. -/
def withHeld (c : X → Option Ppn) (o : Option Ppn) : Option X → Option Ppn
  | none => o
  | some x => c x

theorem update_withHeld (c : X → Option Ppn) (o o' : Option Ppn) :
    update (withHeld c o) none o' = withHeld c o' := by
  ext x
  cases x <;> simp [withHeld]

omit [DecidableEq X] in
theorem Space.Owns.release (h : s.Owns U (withHeld c none)) : s.Owns U c := by
  apply Split.restrict h (Sum.map some id)
  · rintro (y | i) (z | j) e <;> simp_all
  · rintro (y | i) <;> rfl
  rintro ((_ | y) | i) f hy
  · cases hy
  · exact ⟨.inl y, rfl⟩
  · exact ⟨.inr i, rfl⟩

/-- `kalloc` takes the head of the free list, which is then held. -/
theorem owns_kalloc (h : s.Owns U c) {free : List Ppn} (hf : s.kmem.free = f :: free) (s' : Space)
    (hk : s'.kmem.free = free) (hp : s'.pgd = s.pgd) : s'.Owns U (withHeld c (some f)) := by
  have h' : Split U (f :: free) (Sum.elim (withHeld c none) (loc s.pgd)) := by
    rw [← hf]
    apply Split.embed h (Sum.map some id)
    · rintro (y | i) <;> rfl
    rintro ((_ | y) | i) g hy
    · cases hy
    · exact ⟨.inl y, rfl⟩
    · exact ⟨.inr i, rfl⟩
  have hsplit := h'.take (x := .inl none) rfl
  rw [Sum.update_elim_inl, update_withHeld] at hsplit
  unfold Space.Owns
  rw [hk, hp]
  exact hsplit

/-- A held page is given back. -/
theorem owns_kfree (hU : Usable L U) (h : s.Owns U (withHeld c (some f))) :
    ∃ k, kfree L s.kmem f = .ok k ∧ Space.Owns U c { s with kmem := k } := by
  obtain ⟨k, hk, hfree⟩ := kfree_spec hU (Split.mem_of_loc h (x := .inl none) rfl) s.kmem
  refine ⟨k, hk, Space.Owns.release ?_⟩
  have hsplit := Split.give h (x := .inl none) (f := f) rfl
  rw [Sum.update_elim_inl, update_withHeld, ← hfree] at hsplit
  exact hsplit

omit [DecidableEq X] in
/-- A page that is mapped already stops `mappages`. -/
theorem mappages_remap (hp : present s.pgd v = true) (f : Ppn) (perm : BitVec 12) (k : Kmem) :
    mappages 1 { s with kmem := k } v f perm = .error .remap := by
  have hw : walkAlloc { s with kmem := k } v = some { s with kmem := k } := by
    unfold walkAlloc
    cases ht : s.pgd (v / 1024) with
    | some t => rfl
    | none =>
      rw [present_of_none (by simp [walk, ht])] at hp
      cases hp
  simp [mappages, hw, any_present, hp]

abbrev userFlags : BitVec 12 := PTE_W ||| PTE_U ||| PTE_P

omit [DecidableEq X] in
theorem present_of_flags {w : Nat} (h : (pte pgd w).flags = userFlags) : present pgd w = true := by
  rw [present, Pte.present, h]
  rfl

/-- From page `v` on, either all pages up to the new size get mapped, or there were too few free pages, and everything
above the old size is unmapped again. The loop panics only at a page that is mapped already. -/
theorem allocLoop_spec (hU : Usable L U) (oldsz : Nat) {newsz : Nat} (hk : newsz < KERNBASE) (n : Nat) :
    ∀ {s : Space} {v : Nat} (_ : s.Owns U c) (_ : v + n = pageCount newsz) (_ : pageCount oldsz ≤ v),
    ((∃ p, allocLoop L oldsz newsz n s v = .error p) ∧ ∃ w, v ≤ w ∧ w < pageCount newsz ∧ present s.pgd w = true) ∨
    ∃ s' r, allocLoop L oldsz newsz n s v = .ok (s', r) ∧ s'.Owns U c ∧
      (∀ w, w < pageCount oldsz ∨ pageCount newsz ≤ w → pte s'.pgd w = pte s.pgd w) ∧
      (r = newsz ∧ Draws s.kmem s'.kmem ∧ (∀ w, pageCount oldsz ≤ w → w < v → pte s'.pgd w = pte s.pgd w) ∧
          (∀ w, v ≤ w → w < pageCount newsz → (pte s'.pgd w).flags = userFlags) ∨
        r = 0 ∧ s.kmem.free.length < 2 * n ∧
          ∀ w, pageCount oldsz ≤ w → w < pageCount newsz → present s'.pgd w = false) := by
  have hup := pageCount_le_upages (Nat.le_of_lt hk)
  induction n with
  | zero =>
    intro s v h hv _
    exact .inr ⟨s, newsz, rfl, h, fun _ _ => rfl, .inl ⟨rfl, .refl _, fun _ _ _ => rfl, fun w h1 h2 => by omega⟩⟩
  | succ n ih =>
    intro s v h hv hov
    cases hf : s.kmem.free with
    | nil =>
      obtain ⟨s', hs', ho, hpte, hnp⟩ := deallocuvm_spec hU h oldsz (Nat.le_of_lt hk)
      exact .inr ⟨s', 0, by simp [allocLoop, kalloc, hf, hs', Except.map], ho, hpte, .inr ⟨rfl, Nat.succ_pos _, hnp⟩⟩
    | cons f free =>
      by_cases hp : present s.pgd v = true
      · exact .inl ⟨⟨.remap, by simp [allocLoop, kalloc, hf, mappages_remap hp]⟩, v, Nat.le_refl v, by omega, hp⟩
      have ho := owns_kalloc h hf ⟨memset ⟨free, s.kmem.ram⟩ f 0#8, s.pgd⟩ rfl rfl
      rcases mapPage_spec ho (x := none) rfl (v := v) (by omega) (Bool.eq_false_of_not_eq_true hp)
        (PTE_W ||| PTE_U) with ⟨hm, hnone⟩ | ⟨s1, hm, ho1, hd1, hlen, hpte1⟩
      · obtain ⟨s2, hs2, ho2, hpte2, hnp2⟩ := deallocuvm_spec hU ho oldsz (Nat.le_of_lt hk)
        obtain ⟨k, hk2, ho3⟩ := owns_kfree hU ho2
        refine .inr ⟨_, 0, by simp [allocLoop, kalloc, hf, hm, hs2, Except.bind, hk2, Except.map], ho3, hpte2,
          .inr ⟨rfl, ?_, hnp2⟩⟩
        rw [show free = [] from hnone, List.length_singleton]
        omega
      rw [update_withHeld] at ho1
      have hne : ∀ w, w ≠ v → pte s1.pgd w = pte s.pgd w := fun w hw => by rw [hpte1, if_neg hw]
      rcases ih ho1.release (v := v + 1) (by omega) (by omega) with
        ⟨⟨p, hs'⟩, w, h1, h2, hw⟩ | ⟨s', r, hs', ho', hpte', hr⟩
      · refine .inl ⟨⟨p, by simp [allocLoop, kalloc, hf, hm, hs']⟩, w, by omega, h2, ?_⟩
        rwa [present, ← hne w (by omega)]
      refine .inr ⟨s', r, by simp [allocLoop, kalloc, hf, hm, hs'], ho', fun w hw => ?_, ?_⟩
      · rw [hpte' w hw, hne w (by omega)]
      rcases hr with ⟨hr, hd, hlow, hmap⟩ | ⟨hr, hfew, hnone⟩
      · refine .inl ⟨hr, ((draws_kalloc hf _).trans hd1).trans hd, fun w h1 h2 => ?_, fun w h1 h2 => ?_⟩
        · rw [hlow w h1 (by omega), hne w (by omega)]
        · by_cases e : w = v
          · subst e
            rw [hlow w (by omega) (by omega), hpte1, if_pos rfl]
          · exact hmap w (by omega) h2
      · have hle : free.length ≤ s1.kmem.free.length + 1 := hlen
        exact .inr ⟨hr, by rw [List.length_cons]; omega, hnone⟩

/-- `allocuvm` to a larger size. -/
theorem allocuvm_cases (hU : Usable L U) (h : s.Owns U c) (hle : oldsz ≤ newsz)
    (hk : newsz < KERNBASE) : ((∃ p, allocuvm L s oldsz newsz = .error p) ∧
      ∃ w, pageCount oldsz ≤ w ∧ w < pageCount newsz ∧ present s.pgd w = true) ∨
    ∃ s' r, allocuvm L s oldsz newsz = .ok (s', r) ∧ s'.Owns U c ∧
      (∀ w, w < pageCount oldsz ∨ pageCount newsz ≤ w → pte s'.pgd w = pte s.pgd w) ∧
      (r = newsz ∧ Draws s.kmem s'.kmem ∧
          (∀ w, pageCount oldsz ≤ w → w < pageCount newsz → (pte s'.pgd w).flags = userFlags) ∨
        r = 0 ∧ s.kmem.free.length < 2 * (pageCount newsz - pageCount oldsz) ∧
          ∀ w, pageCount oldsz ≤ w → w < pageCount newsz → present s'.pgd w = false) := by
  have hpc := pageCount_le hle
  have hrun : allocuvm L s oldsz newsz =
      allocLoop L oldsz newsz (pageCount newsz - pageCount oldsz) s (pageCount oldsz) := by
    rw [allocuvm, if_neg (by omega), if_neg (by omega)]
  rw [hrun]
  refine (allocLoop_spec hU oldsz hk _ h (by omega) (Nat.le_refl _)).imp_right ?_
  rintro ⟨s', r, hs', ho, hpte, hr⟩
  exact ⟨s', r, hs', ho, hpte, hr.imp_left fun ⟨h1, h2, _, h4⟩ => ⟨h1, h2, h4⟩⟩

/-- `allocuvm`, when nothing is mapped between the two sizes: all of it gets mapped, or nothing changes. -/
theorem allocuvm_spec (hU : Usable L U) (h : s.Owns U c) (hle : oldsz ≤ newsz)
    (hk : newsz < KERNBASE) (hnp : ∀ w, pageCount oldsz ≤ w → w < pageCount newsz → present s.pgd w = false) :
    ∃ s' r, allocuvm L s oldsz newsz = .ok (s', r) ∧ s'.Owns U c ∧
      (∀ w, w < pageCount oldsz ∨ pageCount newsz ≤ w → pte s'.pgd w = pte s.pgd w) ∧
      (r = newsz ∧ Draws s.kmem s'.kmem ∧ (∀ w, pageCount oldsz ≤ w → w < pageCount newsz → present s'.pgd w = true) ∨
        r = 0 ∧ ∀ w, pageCount oldsz ≤ w → w < pageCount newsz → present s'.pgd w = false) := by
  rcases allocuvm_cases (L := L) hU h hle hk with ⟨-, w, h1, h2, hw⟩ | ⟨s', r, hs', ho, hpte, hr⟩
  · rw [hnp w h1 h2] at hw
    cases hw
  · refine ⟨s', r, hs', ho, hpte, hr.imp ?_ fun ⟨h1, _, h3⟩ => ⟨h1, h3⟩⟩
    exact fun ⟨h1, h2, h3⟩ => ⟨h1, h2, fun w hlo hhi => present_of_flags (h3 w hlo hhi)⟩

omit [DecidableEq X] in
theorem pte_empty (v : Nat) : pte (fun _ => none) v = .zero := rfl

omit [DecidableEq X] in
/-- A directory that has just been cleared. -/
theorem owns_empty (h : Split U k.free c) : Space.Owns U c ⟨k, fun _ => none⟩ := by
  apply Split.embed h Sum.inl (fun _ => rfl)
  rintro (x | i | v) f hx
  · exact ⟨x, rfl⟩
  · simp [loc] at hx
  · simp [loc, present, pte_empty, present_zero] at hx

/-- A failed construction is undone. -/
theorem freevm_held (hU : Usable L U) (h : s.Owns U (withHeld c (some d))) :
    ∃ k, freevm L s d = .ok k ∧ Split U k.free c := by
  obtain ⟨k, hk, hs⟩ := freevm_spec hU h (x := none) rfl
  rw [update_withHeld] at hs
  refine ⟨k, hk, hs.restrict some (fun _ _ => Option.some.inj) (fun _ => rfl) ?_⟩
  rintro (_ | x) f hx
  · cases hx
  · exact ⟨x, rfl⟩

/-- What a function that builds a directory returns: none, with memory as before, or one that satisfies
`P`, whose own page is held. -/
def Built (U : Set Ppn) (c : X → Option Ppn) (P : Pgd → Prop) (k : Kmem) : Option (Ppn × Pgd) → Prop
  | none => Split U k.free c
  | some (d, pgd) => Space.Owns U (withHeld c (some d)) ⟨k, pgd⟩ ∧ P pgd

/-- `setupkvm` maps nothing below `KERNBASE`. -/
theorem setupkvm_spec (hU : Usable L U) (h : Split U k.free c) :
    ∃ k' r, setupkvm L k = .ok (k', r) ∧
      Built U c (fun pgd => (∀ w, w < UPAGES → present pgd w = false) ∧ Draws k k') k' r := by
  cases hf : k.free with
  | nil => exact ⟨k, none, by simp [setupkvm, kalloc, hf], h⟩
  | cons d free =>
    have ho := owns_kalloc (owns_empty h) hf ⟨memset ⟨free, k.ram⟩ d 0#8, fun _ => none⟩ rfl rfl
    obtain ⟨s', b, hs', ho', hd, -, hpte⟩ := mapAll_spec (kmap L) ho (Nat.le_refl _) (ascending_kmap L) fun w _ => by
      rw [present, pte_empty, present_zero]
    cases b with
    | true =>
      refine ⟨s'.kmem, some (d, s'.pgd), by simp [setupkvm, kalloc, hf, hs'], ho', ?_, (draws_kalloc hf _).trans hd⟩
      intro w hw
      rw [present, hpte w hw, pte_empty, present_zero]
    | false =>
      obtain ⟨k', hk', hs⟩ := freevm_held hU ho'
      exact ⟨k', none, by simp [setupkvm, kalloc, hf, hs', hk', Except.map], hs⟩

/-- A page of `[v, v + n)` that is not mapped. -/
def Gap (pgd : Pgd) (v n : Nat) : Prop := ∃ w, v ≤ w ∧ w < v + n ∧ present pgd w = false

omit [DecidableEq X] in
theorem flags_present (h : e.present = true) : e.flags ||| PTE_P = e.flags := by
  ext i hi
  rw [BitVec.getElem_or]
  by_cases h0 : i = 0
  · subst h0
    have hbit : e.flags[0] = true := h
    rw [hbit, Bool.true_or]
  have hbit : (PTE_P)[i] = false := by
    simp only [PTE_P]
    rw [BitVec.getElem_one]
    simpa using h0
  rw [hbit, Bool.or_false]

/-- Page `v` of the directory is one of the copy's, with the contents that page had in `src`. -/
def SamePage (src pgd : Pgd) (k k' : Kmem) (v : Nat) : Prop :=
  (pte pgd v).flags = (pte src v).flags ∧ k'.ram (pte pgd v).ppn = k.ram (pte src v).ppn

/-- Copying pages that are not yet in the copy: unless memory runs out they are all mapped in the copy, with the
contents they have in the source if that has none that is free. The loop panics only at a page that is not mapped in the
source. -/
theorem copyLoop_spec (hU : Usable L U) (src : Pgd) (n : Nat) : ∀ {s : Space} {v : Nat} (_ : s.Owns U c)
    (_ : v + n ≤ UPAGES) (_ : ∀ w, v ≤ w → w < v + n → present s.pgd w = false),
    ((∃ p, copyLoop L src n s v = .error p) ∧ Gap src v n) ∨
    ∃ s' b, copyLoop L src n s v = .ok (s', b) ∧ s'.Owns U c ∧
      (b = true → Draws s.kmem s'.kmem ∧ (∀ w, w < v ∨ v + n ≤ w → pte s'.pgd w = pte s.pgd w) ∧
        (∀ w, v ≤ w → w < v + n → present s'.pgd w = true) ∧
        ((∀ w, w < v + n → (pte src w).ppn ∉ s.kmem.free) →
          ∀ w, v ≤ w → w < v + n → SamePage src s'.pgd s.kmem s'.kmem w)) := by
  induction n with
  | zero =>
    exact fun {s v} h _ _ => .inr ⟨s, true, rfl, h, fun _ => ⟨.refl _, fun _ _ => rfl, fun w h1 h2 => by omega,
      fun _ w h1 h2 => by omega⟩⟩
  | succ n ih =>
    intro s v h hv hnp
    cases he : walk src v with
    | none => exact .inl ⟨⟨.pteShouldExist, by simp [copyLoop, he]⟩, v, Nat.le_refl v, by omega, present_of_none he⟩
    | some e =>
      by_cases hp : e.present = true
      · cases hf : s.kmem.free with
        | nil => exact .inr ⟨s, false, by simp [copyLoop, he, hp, kalloc, hf], h, by simp⟩
        | cons f free =>
          have ho := owns_kalloc h hf ⟨⟨free, update s.kmem.ram f (s.kmem.ram e.ppn)⟩, s.pgd⟩ rfl rfl
          rcases mapPage_spec ho (x := none) rfl (v := v) (by omega) (hnp v (Nat.le_refl v) (by omega)) e.flags
            with ⟨hm, -⟩ | ⟨s1, hm, ho1, hd1, -, hpte1⟩
          · obtain ⟨k, hk, ho2⟩ := owns_kfree hU ho
            exact .inr ⟨_, false, by simp [copyLoop, he, hp, kalloc, hf, hm, hk, Except.map], ho2, by simp⟩
          rw [update_withHeld] at ho1
          have hne : ∀ w, w ≠ v → pte s1.pgd w = pte s.pgd w := fun w hw => by rw [hpte1, if_neg hw]
          have hd0 : Draws s.kmem s1.kmem := (draws_kalloc hf _).trans hd1
          have hnp1 : ∀ w, v + 1 ≤ w → w < v + 1 + n → present s1.pgd w = false := by
            intro w h1 h2
            rw [present, hne w (by omega)]
            exact hnp w (by omega) (by omega)
          rcases ih ho1.release (by omega) hnp1 with ⟨⟨p, hs'⟩, w, h1, h2, hw⟩ | ⟨s', b, hs', ho', hb⟩
          · exact .inl ⟨⟨p, by simp [copyLoop, he, hp, kalloc, hf, hm, hs']⟩, w, by omega, by omega, hw⟩
          refine .inr ⟨s', b, by simp [copyLoop, he, hp, kalloc, hf, hm, hs'], ho', fun hb' => ?_⟩
          obtain ⟨hd, hlow, hmap, hsame⟩ := hb hb'
          have hv' : pte s'.pgd v = ⟨f, e.flags ||| PTE_P⟩ := by rw [hlow v (by omega), hpte1, if_pos rfl]
          refine ⟨hd0.trans hd, fun w hw => ?_, fun w h1 h2 => ?_, fun hsrc w h1 h2 => ?_⟩
          · rw [hlow w (by omega), hne w (by omega)]
          · by_cases ew : w = v
            · subst ew
              rw [present, hv']
              simp [Pte.present]
            · exact hmap w (by omega) (by omega)
          rw [← hf] at hsrc
          by_cases ew : w = v
          · subst ew
            have hfree : f ∉ free := (List.nodup_cons.1 (hf ▸ h.nodup)).1
            rw [SamePage, hv', pte_of_some he]
            refine ⟨flags_present hp, ?_⟩
            -- the page is not drawn again
            rw [hd.ram f fun hin => hfree (hd1.free hin), hd1.ram f hfree]
            exact update_self ..
          · obtain ⟨hflags, hram⟩ := hsame (fun w hw hin => hsrc w (by omega) (hd0.free hin)) w (by omega) (by omega)
            exact ⟨hflags, hram.trans (hd0.ram _ (hsrc w h2))⟩
      · refine .inl ⟨⟨.pageNotPresent, by simp [copyLoop, he, hp]⟩, v, Nat.le_refl v, by omega, ?_⟩
        rw [present, pte_of_some he]
        simpa using hp

/-- Exactly the pages of `[0, sz)` are mapped below `KERNBASE`. -/
def Maps (pgd : Pgd) (sz : Nat) : Prop := ∀ w, w < UPAGES → (present pgd w = true ↔ w < pageCount sz)

/-- What `copyuvm` makes maps exactly the pages below `sz`. -/
structure Copied (src : Pgd) (sz : Nat) (k k' : Kmem) (pgd : Pgd) : Prop where
  maps : Maps pgd sz
  draws : Draws k k'
  same : (∀ w, w < pageCount sz → (pte src w).ppn ∉ k.free) → ∀ w, w < pageCount sz → SamePage src pgd k k' w

variable {sz : Nat}

/-- `copyuvm` of any directory: there is no copy if memory runs out, and a page below `sz` that is not mapped may make
it panic. -/
theorem copyuvm_cases (hU : Usable L U) (h : Split U k.free c) (src : Pgd)
    (hsz : sz ≤ KERNBASE) : ((∃ p, copyuvm L src sz k = .error p) ∧ Gap src 0 (pageCount sz)) ∨
    ∃ k' r, copyuvm L src sz k = .ok (k', r) ∧ Built U c (Copied src sz k k') k' r := by
  obtain ⟨k1, r, hk1, hr⟩ := setupkvm_spec hU h
  have hup := pageCount_le_upages hsz
  cases r with
  | none => exact .inr ⟨k1, none, by simp [copyuvm, hk1], hr⟩
  | some r =>
    obtain ⟨d, pgd⟩ := r
    obtain ⟨ho, hemp, hd⟩ := hr
    rcases copyLoop_spec hU src (pageCount sz) ho (v := 0) (by omega) fun w _ hw => hemp w (by omega) with
      ⟨⟨p, hp⟩, hgap⟩ | ⟨s', b, hs', ho', hb⟩
    · exact .inl ⟨⟨p, by simp [copyuvm, hk1, hp]⟩, hgap⟩
    right
    cases b with
    | true =>
      obtain ⟨hd', hlow, hmap, hsame⟩ := hb rfl
      refine ⟨s'.kmem, some (d, s'.pgd), by simp [copyuvm, hk1, hs'], ho', ?_, hd.trans hd', fun hsrc w hw => ?_⟩
      · refine fun w hw => ⟨fun hp => ?_, fun hlt => hmap w (Nat.zero_le w) (by omega)⟩
        by_contra hge
        rw [present, hlow w (by omega), ← present] at hp
        simp only [hemp w hw] at hp
        cases hp
      · obtain ⟨hflags, hram⟩ := hsame (fun w hw hin => hsrc w (by omega) (hd.free hin)) w (Nat.zero_le w) (by omega)
        exact ⟨hflags, hram.trans (hd.ram _ (hsrc w hw))⟩
    | false =>
      obtain ⟨k', hk', hs⟩ := freevm_held hU ho'
      exact ⟨k', none, by simp [copyuvm, hk1, hs', hk', Except.map], hs⟩

/-- `copyuvm` of a directory with all pages below `sz` mapped does not panic. -/
theorem copyuvm_spec (hU : Usable L U) (h : Split U k.free c) {src : Pgd}
    (hsz : sz ≤ KERNBASE) (hsrc : ∀ w, w < pageCount sz → present src w = true) :
    ∃ k' r, copyuvm L src sz k = .ok (k', r) ∧ Built U c (Copied src sz k k') k' r := by
  rcases copyuvm_cases hU h src hsz with ⟨-, w, -, hw, hp⟩ | h
  · rw [hsrc w (by omega)] at hp
    cases hp
  · exact h

/-! ## `growproc` -/

variable {n : Int}

theorem addSz_eq (h0 : 0 ≤ sz + n) (h1 : sz + n < 2 ^ 32) : (addSz sz n : Int) = sz + n := by
  rw [addSz, Int.emod_eq_of_lt h0 h1, Int.toNat_of_nonneg h0]

/-- A new size below zero wraps around to one above `KERNBASE`. -/
theorem addSz_wraps (hn : -2 ^ 31 ≤ n) (h : sz + n < 0) : KERNBASE ≤ addSz sz n := by
  have hmod : (sz + n) % 2 ^ 32 = sz + n + 2 ^ 32 := by omega
  have hk : KERNBASE = 2 ^ 31 := rfl
  unfold addSz
  omega

/-- The pages of the process are those they were before. -/
def SameUser (pgd pgd' : Pgd) : Prop :=
  ∀ w, w < UPAGES → present pgd' w = present pgd w ∧ (present pgd w = true → pte pgd' w = pte pgd w)

omit [DecidableEq X] in
theorem SameUser.maps {pgd pgd' : Pgd} (h : SameUser pgd pgd') (hm : Maps pgd sz) : Maps pgd' sz := by
  intro w hw
  rw [(h w hw).1]
  exact hm w hw

section

variable (hU : Usable L U) (h : s.Owns U c) (hsz : sz < KERNBASE)
include hU h hsz

/-- Growing gives the new size and its pages, or fails and changes nothing. -/
theorem growproc_pos (hpos : 0 < n) (hn : n < 2 ^ 31) (hm : Maps s.pgd sz) :
    ∃ s' sz' r, growproc L s sz n = .ok (s', sz', r) ∧ s'.Owns U c ∧ sz' < KERNBASE ∧
      (r = 0 ∧ (sz' : Int) = sz + n ∧ Maps s'.pgd sz' ∨
        r = -1 ∧ sz' = sz ∧ SameUser s.pgd s'.pgd ∧ (KERNBASE ≤ sz + n → s' = s)) := by
  have hk : KERNBASE = 2 ^ 31 := rfl
  have hadd : (addSz sz n : Int) = sz + n := addSz_eq (by omega) (by omega)
  by_cases hbig : KERNBASE ≤ addSz sz n
  · refine ⟨s, sz, -1, ?_, h, hsz, .inr ⟨rfl, rfl, fun _ _ => ⟨rfl, fun _ => rfl⟩, fun _ => rfl⟩⟩
    simp [growproc, hpos, allocuvm, hbig, Except.map]
  have hle : sz ≤ addSz sz n := by omega
  have hup := pageCount_le_upages (Nat.le_of_not_le hbig)
  obtain ⟨s', r, hs', ho, hpte, hr⟩ := allocuvm_spec (L := L) hU h hle (by omega) fun w h1 h2 => by
    have := (hm w (by omega)).1.mt (by omega)
    simpa using this
  have hsame : ∀ w, w < pageCount sz ∨ pageCount (addSz sz n) ≤ w → present s'.pgd w = present s.pgd w := by
    intro w hw
    rw [present, hpte w hw, ← present]
  have hpc := pageCount_le hle
  rcases hr with ⟨rfl, -, hmap⟩ | ⟨rfl, hnone⟩
  · refine ⟨s', addSz sz n, 0, ?_, ho, by omega, .inl ⟨rfl, hadd, ?_⟩⟩
    · have : addSz sz n ≠ 0 := by omega
      simp [growproc, hpos, hs', Except.map, this]
    · intro w hw
      by_cases hin : pageCount sz ≤ w ∧ w < pageCount (addSz sz n)
      · simp [hmap w hin.1 hin.2, hin.2]
      · rw [hsame w (by omega), hm w hw]
        omega
  refine ⟨s', sz, -1, by simp [growproc, hpos, hs', Except.map], ho, hsz, .inr ⟨rfl, rfl, ?_, fun hb => by omega⟩⟩
  intro w hw
  by_cases hin : pageCount sz ≤ w ∧ w < pageCount (addSz sz n)
  · -- what was mapped before memory ran out is gone again
    have hold : present s.pgd w = false := by
      have := (hm w hw).1.mt (by omega)
      simpa using this
    rw [hnone w hin.1 hin.2, hold]
    exact ⟨rfl, by simp⟩
  · exact ⟨hsame w (by omega), fun _ => hpte w (by omega)⟩

/-- Shrinking does too, except to exactly nothing: then the pages go and the size stays; and a size below nothing counts as
one that is too large to shrink to, which is no failure unless the size is 0. -/
theorem growproc_neg (hneg : n < 0) (hn : -2 ^ 31 ≤ n) (hm : Maps s.pgd sz) :
    ∃ s' sz' r, growproc L s sz n = .ok (s', sz', r) ∧ s'.Owns U c ∧ sz' < KERNBASE ∧
      (0 < sz + n → r = 0 ∧ (sz' : Int) = sz + n ∧ Maps s'.pgd sz') ∧
      (sz + n = 0 → r = -1 ∧ sz' = sz ∧ Maps s'.pgd 0) ∧
      (sz + n < 0 → r = (if sz = 0 then -1 else 0) ∧ sz' = sz ∧ s' = s) := by
  have hk : KERNBASE = 2 ^ 31 := rfl
  have hnp : ¬ n > 0 := by omega
  by_cases hw : sz + n < 0
  · have hge : sz ≤ addSz sz n := (addSz_wraps hn hw).trans' (by omega)
    refine ⟨s, sz, if sz = 0 then -1 else 0, ?_, h, hsz, by omega, by omega, fun _ => ⟨rfl, rfl, rfl⟩⟩
    by_cases h0 : sz = 0 <;> simp [growproc, hnp, hneg, deallocuvm, hge, Except.map, h0]
  have hadd : (addSz sz n : Int) = sz + n := addSz_eq (by omega) (by omega)
  have hle : addSz sz n ≤ sz := by omega
  have hpc := pageCount_le hle
  have hup := pageCount_le_upages hsz.le
  obtain ⟨s', hs', ho, hpte, hnone⟩ := deallocuvm_spec hU h (addSz sz n) hsz.le
  rw [Nat.min_eq_right hle] at hs'
  have hmaps : Maps s'.pgd (addSz sz n) := by
    intro w hlt
    by_cases hin : pageCount (addSz sz n) ≤ w ∧ w < pageCount sz
    · simp [hnone w hin.1 hin.2, hin.1]
    · rw [present, hpte w (by omega), ← present, hm w hlt]
      omega
  by_cases h0 : addSz sz n = 0
  · rw [h0] at hs' hmaps
    exact ⟨s', sz, -1, by simp [growproc, hnp, hneg, hs', h0, Except.map], ho, hsz, by omega,
      fun _ => ⟨rfl, rfl, hmaps⟩, by omega⟩
  · exact ⟨s', addSz sz n, 0, by simp [growproc, hnp, hneg, hs', h0, Except.map], ho, by omega,
      fun _ => ⟨rfl, hadd, hmaps⟩, by omega, by omega⟩

/-- `growproc` on a directory whose pages are exactly those of `[0, sz)` does not panic. -/
theorem growproc_spec
    (hlo : -2 ^ 31 ≤ n) (hhi : n < 2 ^ 31) (hm : Maps s.pgd sz) :
    ∃ s' sz' r, growproc L s sz n = .ok (s', sz', r) ∧ s'.Owns U c ∧ sz' < KERNBASE ∧
      (¬ (n < 0 ∧ sz + n = 0) → Maps s'.pgd sz') ∧
      (n = 0 ∨ KERNBASE ≤ sz + n ∨ sz + n < 0 → sz' = sz ∧ s' = s) := by
  rcases Int.lt_trichotomy n 0 with hneg | rfl | hpos
  · obtain ⟨s', sz', r, hs', ho, hlt, hshrink, -, hwrap⟩ := growproc_neg hU h hsz hneg hlo hm
    refine ⟨s', sz', r, hs', ho, hlt, fun hne => ?_, fun hr => ⟨(hwrap (by omega)).2.1, (hwrap (by omega)).2.2⟩⟩
    rcases Int.lt_trichotomy (sz + n) 0 with hlt | h0 | hgt
    · rw [(hwrap hlt).2.1, (hwrap hlt).2.2]
      exact hm
    · exact absurd ⟨hneg, h0⟩ hne
    · exact (hshrink hgt).2.2
  · exact ⟨s, sz, 0, rfl, h, hsz, fun _ => hm, fun _ => ⟨rfl, rfl⟩⟩
  · obtain ⟨s', sz', r, hs', ho, hlt, hr⟩ := growproc_pos hU h hsz hpos hhi hm
    refine ⟨s', sz', r, hs', ho, hlt, ?_⟩
    rcases hr with ⟨-, hsz', hmap⟩ | ⟨-, hsz', hsame, hbig⟩
    · exact ⟨fun _ => hmap, fun hr => by omega⟩
    · exact ⟨fun _ => hsz' ▸ hsame.maps hm, fun hr => ⟨hsz', hbig (by omega)⟩⟩

end

end Spec

/-! ## A few pages of memory -/

def smallLayout : Layout where
  data := 300
  end_ := 1000 * 4096
  extmem_lt := by decide
  data_lt := by decide

theorem usable_range' {n : Nat} (hn : 1000 + n ≤ 57344) : Usable smallLayout {f | f ∈ List.range' 1000 n} := by
  intro f hf
  obtain ⟨hlo, hhi⟩ := List.mem_range'_1.1 hf
  have hend : 1000 * 4096 ≤ f * 4096 := Nat.mul_le_mul_right 4096 hlo
  have htop : f < 57344 := Nat.lt_of_lt_of_le hhi hn
  exact ⟨by simp [Layout.owns, smallLayout, hend, htop], Nat.ne_of_gt (Nat.lt_of_lt_of_le (by decide) hlo)⟩

theorem split_range' {X : Type} (n : Nat) : Split {f | f ∈ List.range' 1000 n} (List.range' 1000 n) fun _ : X => none :=
  ⟨List.nodup_range', by simp, by simp, by simp⟩

def smallPages : List Ppn := List.range' 1000 13

theorem small_usable : Usable smallLayout {f | f ∈ smallPages} := usable_range' (by decide)

theorem small_split {X : Type} : Split {f | f ∈ smallPages} smallPages fun _ : X => none := split_range' 13

end Xv6.Vm
