import Mathlib.Algebra.BigOperators.Fin
import Mathlib.Algebra.Order.BigOperators.Ring.Finset

/-!
# Who is the first to draw below its bound

Every one of `k` players draws a number below `T`; `FirstBelow t d i` says that `i` is the first whose draw
is below its own bound `t i`. The draws with that outcome are a product of sets, one per player, and so they
are counted (`card_firstBelow`).
-/

namespace Draws

variable {k n T : Nat} {d : Fin (n + 1) → Fin T} {t : Fin (n + 1) → Nat} {m : Nat}

def FirstBelow (t : Fin k → Nat) (d : Fin k → Fin T) (i : Fin k) : Prop :=
  (∀ j, j < i → t j ≤ d j) ∧ (d i : Nat) < t i

instance (t : Fin k → Nat) (d : Fin k → Fin T) (i : Fin k) : Decidable (FirstBelow t d i) :=
  inferInstanceAs (Decidable (_ ∧ _))

theorem firstBelow_zero : FirstBelow t d 0 ↔ (d 0 : Nat) < t 0 := by
  simp [FirstBelow]

theorem firstBelow_succ {i : Fin n} :
    FirstBelow t d i.succ ↔ t 0 ≤ d 0 ∧ FirstBelow (fun j => t j.succ) (fun j => d j.succ) i := by
  simp only [FirstBelow, Fin.forall_fin_succ, Fin.succ_pos, forall_const, Fin.succ_lt_succ_iff, and_assoc]

/-- How many draws of player `j` leave the first place to `i`. -/
def factor (t : Fin k → Nat) (T : Nat) (i j : Fin k) : Nat :=
  if j < i then T - t j else if j = i then t i else T

theorem card_below (h : m ≤ T) : (Finset.univ.filter fun x : Fin T => (x : Nat) < m).card = m := by
  rw [Fin.card_filter_val_lt, Nat.min_eq_right h]

theorem card_notBelow (h : m ≤ T) : (Finset.univ.filter fun x : Fin T => m ≤ (x : Nat)).card = T - m := by
  have hsum := Finset.card_filter_add_card_filter_not (s := (Finset.univ : Finset (Fin T))) fun x => (x : Nat) < m
  simp only [not_lt, card_below h, Finset.card_univ, Fintype.card_fin] at hsum
  omega

theorem card_firstBelow {t : Fin k → Nat} (h : ∀ j, t j ≤ T) (i : Fin k) :
    (Finset.univ.filter fun d : Fin k → Fin T => FirstBelow t d i).card = ∏ j, factor t T i j := by
  have hpi : (Finset.univ.filter fun d : Fin k → Fin T => FirstBelow t d i) = Fintype.piFinset fun j =>
      Finset.univ.filter fun x : Fin T => (j < i → t j ≤ (x : Nat)) ∧ (j = i → (x : Nat) < t i) := by
    ext d
    simp only [Finset.mem_filter, Finset.mem_univ, true_and, Fintype.mem_piFinset]
    constructor
    · rintro ⟨hbelow, hi⟩ j
      refine ⟨hbelow j, ?_⟩
      rintro rfl
      exact hi
    · intro hd
      exact ⟨fun j hj => (hd j).1 hj, (hd i).2 rfl⟩
  rw [hpi, Fintype.card_piFinset]
  refine Finset.prod_congr rfl ?_
  intro j _
  rw [factor]
  by_cases hlt : j < i
  · simp only [hlt, hlt.ne, forall_const, false_implies, and_true, if_true]
    exact card_notBelow (h j)
  by_cases he : j = i
  · subst he
    simp only [lt_irrefl, false_implies, forall_const, true_and, if_false, if_true]
    exact card_below (h j)
  · simp [hlt, he]

/-- A product of numbers up to `T` one of which is less than `T`. -/
theorem prod_lt_pow {f : Fin n → Nat} (hT : 0 < T) (h : ∀ j, f j ≤ T) {j : Fin n} (hj : f j < T) :
    ∏ j, f j < T ^ n := by
  have hothers : ∏ x ∈ Finset.univ.erase j, f x ≤ T ^ (n - 1) := by
    have := Finset.prod_le_pow_card (Finset.univ.erase j) f T fun x _ => h x
    rwa [Finset.card_erase_of_mem (Finset.mem_univ j), Finset.card_univ, Fintype.card_fin] at this
  obtain ⟨m, rfl⟩ : ∃ m, n = m + 1 := Nat.exists_eq_succ_of_ne_zero (Fin.pos j).ne'
  rw [Nat.add_sub_cancel] at hothers
  calc ∏ x, f x = f j * ∏ x ∈ Finset.univ.erase j, f x := (Finset.mul_prod_erase _ f (Finset.mem_univ j)).symm
    _ ≤ f j * T ^ m := Nat.mul_le_mul_left _ hothers
    _ < T * T ^ m := Nat.mul_lt_mul_of_pos_right hj (Nat.pow_pos hT)
    _ = T ^ (m + 1) := (Nat.pow_succ').symm

/-- The share of `i` is in proportion to its bound if and only if nobody draws before it. -/
theorem card_firstBelow_eq_iff {t : Fin k → Nat} (h : ∀ j, t j ≤ T) (hpos : ∀ j, 0 < t j) (i : Fin k) :
    (Finset.univ.filter fun d : Fin k → Fin T => FirstBelow t d i).card = t i * T ^ (k - 1) ↔ (i : Nat) = 0 := by
  obtain ⟨n, rfl⟩ : ∃ n, k = n + 1 := Nat.exists_eq_succ_of_ne_zero (Fin.pos i).ne'
  have hT : 0 < T := Nat.lt_of_lt_of_le (hpos i) (h i)
  rw [card_firstBelow h, Fin.prod_univ_succAbove _ i, Nat.add_sub_cancel]
  have hi : factor t T i i = t i := by simp [factor]
  have hle : ∀ j, factor t T i (i.succAbove j) ≤ T := by
    intro j
    rw [factor, if_neg (Fin.succAbove_ne i j)]
    split <;> omega
  rw [hi, Nat.mul_right_inj (hpos i).ne']
  constructor
  · intro heq
    by_contra hne
    have hlt : (⟨0, by omega⟩ : Fin (n + 1)) < i := Fin.lt_def.2 (show 0 < (i : Nat) by omega)
    obtain ⟨j, hj⟩ := Fin.exists_succAbove_eq hlt.ne
    have hless : factor t T i (i.succAbove j) < T := by
      rw [hj, factor, if_pos hlt]
      have := hpos ⟨0, by omega⟩
      omega
    exact (prod_lt_pow hT hle hless).ne heq
  · intro h0
    have hfac : ∀ j, factor t T i (i.succAbove j) = T := by
      intro j
      rw [factor, if_neg (by rw [Fin.lt_def]; omega), if_neg (Fin.succAbove_ne i j)]
    simp [hfac]

end Draws
