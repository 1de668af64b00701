import Mathlib.Algebra.Order.BigOperators.Group.Finset
import Mathlib.Data.Fintype.BigOperators

/-!
# Links between finitely many nodes

Every node has a bag of kids; a node may be a kid of several others, and of one more than once. `indeg` counts how
often a node is a kid. It changes with one bag by what is put in and taken out.

Some nodes are inner ones and only they have kids. Where the inner kids have a higher rank than the node they belong to,
there is no cycle.
-/

universe u v

namespace Links

open Function

variable {ι : Type u} [Fintype ι] [DecidableEq ι] {kids : ι → Multiset ι} {d e i j : ι} {m : Multiset ι}
  {rank : ι → Nat} {p : ι → Prop}

/-- A sum with one term replaced. -/
theorem sum_update {β : Type v} (g : β → Nat) (f : ι → β) (d : ι) (x : β) :
    ∑ i, g (update f d x i) + g (f d) = ∑ i, g (f i) + g x := by
  have hrest : ∑ i ∈ Finset.univ.erase d, g (update f d x i) = ∑ i ∈ Finset.univ.erase d, g (f i) := by
    apply Finset.sum_congr rfl
    intro i hi
    rw [update_of_ne (Finset.ne_of_mem_erase hi)]
  rw [← Finset.add_sum_erase _ _ (Finset.mem_univ d), ← Finset.add_sum_erase _ (fun i => g (f i)) (Finset.mem_univ d),
    hrest, update_self]
  omega

def indeg (kids : ι → Multiset ι) (i : ι) : Nat := ∑ d, (kids d).count i

theorem indeg_update (kids : ι → Multiset ι) (d : ι) (m : Multiset ι) (i : ι) :
    indeg (update kids d m) i + (kids d).count i = indeg kids i + m.count i :=
  sum_update (fun m => m.count i) kids d m

theorem indeg_cons (kids : ι → Multiset ι) (d j i : ι) :
    indeg (update kids d (j ::ₘ kids d)) i = indeg kids i + if i = j then 1 else 0 := by
  have h := indeg_update kids d (j ::ₘ kids d) i
  rw [Multiset.count_cons] at h
  omega

theorem indeg_erase (hj : j ∈ kids d) (i : ι) :
    indeg (update kids d ((kids d).erase j)) i + (if i = j then 1 else 0) = indeg kids i := by
  have h := indeg_update kids d ((kids d).erase j) i
  have hc : (kids d).count i = ((kids d).erase j).count i + if i = j then 1 else 0 := by
    conv_lhs => rw [← Multiset.cons_erase hj]
    rw [Multiset.count_cons]
  omega

theorem count_le_indeg (kids : ι → Multiset ι) (d i : ι) : (kids d).count i ≤ indeg kids i :=
  Finset.single_le_sum (f := fun d => (kids d).count i) (fun _ _ => Nat.zero_le _) (Finset.mem_univ d)

theorem indeg_pos (h : i ∈ kids d) : 0 < indeg kids i :=
  Nat.lt_of_lt_of_le (Multiset.count_pos.2 h) (count_le_indeg kids d i)

theorem exists_of_indeg_pos (h : 0 < indeg kids i) : ∃ d, i ∈ kids d := by
  by_contra hno
  have h0 : indeg kids i = 0 := by
    apply Finset.sum_eq_zero
    intro d _
    exact Multiset.count_eq_zero.2 fun hd => hno ⟨d, hd⟩
  omega

theorem not_mem_of_indeg_eq_zero (h : indeg kids i = 0) (d : ι) : i ∉ kids d := by
  intro hd
  have := indeg_pos hd
  omega

/-- A node that is a kid at most once is a kid of at most one node. -/
theorem eq_of_indeg_le_one (h : indeg kids i ≤ 1) (hd : i ∈ kids d) (he : i ∈ kids e) : d = e := by
  by_contra hne
  have hsum : (kids d).count i + (kids e).count i ≤ indeg kids i := by
    have := Finset.sum_le_univ_sum_of_nonneg (s := {d, e}) (f := fun x => (kids x).count i) fun _ => Nat.zero_le _
    rwa [Finset.sum_pair hne] at this
  have hd' := Multiset.count_pos.2 hd
  have he' := Multiset.count_pos.2 he
  omega

/-- Inner kids that are kids at most once can be counted as a set. -/
theorem countP_eq_card [DecidablePred p] (h : ∀ i, p i → indeg kids i ≤ 1) (d : ι) :
    (kids d).countP p = ((kids d).filter p).toFinset.card := by
  have hnd : ((kids d).filter p).Nodup := by
    rw [Multiset.nodup_iff_count_le_one]
    intro i
    rw [Multiset.count_filter]
    split
    next hp =>
      exact (count_le_indeg kids d i).trans (h i hp)
    · exact Nat.zero_le _
  rw [Multiset.countP_eq_card_filter, Multiset.toFinset_card_of_nodup hnd]

theorem countP_le_card [DecidablePred p] (h : ∀ i, p i → indeg kids i ≤ 1) (d : ι) :
    (kids d).countP p ≤ Fintype.card ι := by
  rw [countP_eq_card h]
  exact Finset.card_le_univ _

/-! ## What is below a node -/

/-- Below `root` by a path of kids. -/
inductive Below (kids : ι → Multiset ι) (root : ι) : ι → Prop where
  | root : Below kids root root
  | kid {d i : ι} : Below kids root d → i ∈ kids d → Below kids root i

omit [Fintype ι] [DecidableEq ι] in
/-- Where inner kids rank higher, a node that is a kid of itself over some steps would rank above itself. -/
theorem acyclic (inner : ι → Prop) (hleaf : ∀ d i, i ∈ kids d → inner d)
    (hrank : ∀ d i, i ∈ kids d → inner i → rank d < rank i) (i : ι) :
    ¬ Relation.TransGen (fun d c => c ∈ kids d) i i := by
  have hlt : ∀ a b, Relation.TransGen (fun d c => c ∈ kids d) a b → inner b → rank a < rank b := by
    intro a b h
    induction h with
    | single h => exact hrank a _ h
    | tail _ h ih =>
      intro hc
      exact (ih (hleaf _ _ h)).trans (hrank _ _ h hc)
  intro h
  have hi : inner i := by
    obtain ⟨c, hc, -⟩ := Relation.TransGen.head'_iff.1 h
    exact hleaf i c hc
  exact Nat.lt_irrefl _ (hlt i i h hi)

/-- If every inner node but the root is a kid, unless it has no kids, then all kids are below the root. -/
theorem below_of_rank (inner : ι → Prop) {root : ι} (hleaf : ∀ d i, i ∈ kids d → inner d)
    (hrank : ∀ d i, i ∈ kids d → inner i → rank d < rank i)
    (hdead : ∀ d, inner d → d ≠ root → indeg kids d = 0 → kids d = 0) (h : i ∈ kids d) : Below kids root i := by
  -- by induction on the rank of the node it is a kid of
  induction hr : rank d using Nat.strong_induction_on generalizing d i with
  | _ r ih =>
    subst hr
    by_cases hroot : d = root
    · subst hroot
      exact .kid .root h
    have hpos : 0 < indeg kids d := by
      rw [Nat.pos_iff_ne_zero]
      intro h0
      rw [hdead d (hleaf d i h) hroot h0] at h
      exact Multiset.notMem_zero _ h
    obtain ⟨e, he⟩ := exists_of_indeg_pos hpos
    exact .kid (ih (rank e) (hrank e d he (hleaf d i h)) he rfl) h

end Links
