import Mathlib.Data.Set.Insert

/-!
# Things at different positions

`Placement place S U`: what `place` says of the things of `S` are different positions of `U`, or 0 for a thing that has
none.
-/

universe u

variable {κ : Type u}

structure Placement (place : κ → Nat) (S : Set κ) (U : Set Nat) : Prop where
  mem : ∀ p ∈ S, place p ≠ 0 → place p ∈ U
  inj : ∀ p ∈ S, ∀ q ∈ S, place p ≠ 0 → place p = place q → p = q

namespace Placement

variable {place place' : κ → Nat} {S S' : Set κ} {U U' : Set Nat} {p : κ} {x : Nat}

theorem congr (h : Placement place S U) (heq : ∀ p ∈ S, place' p = place p) : Placement place' S U := by
  refine ⟨?_, ?_⟩
  · intro p hp hne
    rw [heq p hp] at hne ⊢
    exact h.mem p hp hne
  intro p hp q hq hne hpq
  rw [heq p hp] at hne hpq
  rw [heq q hq] at hpq
  exact h.inj p hp q hq hne hpq

/-- More things, without a position. -/
theorem grow (h : Placement place S U) (hnew : ∀ p ∈ S', p ∈ S ∨ place p = 0) : Placement place S' U := by
  have hold : ∀ p ∈ S', place p ≠ 0 → p ∈ S := fun p hp hne => (hnew p hp).resolve_right hne
  refine ⟨fun p hp hne => h.mem p (hold p hp hne) hne, ?_⟩
  intro p hp q hq hne hpq
  exact h.inj p (hold p hp hne) q (hold q hq (hpq ▸ hne)) hne hpq

/-- A thing gets a position that no other has. -/
theorem put (h : Placement place S U) (hU : U ⊆ U') (hx : x ∈ U') (hfresh : x ∉ U) (hx0 : x ≠ 0) (hself : place' p = x)
    (heq : ∀ q ∈ S, q ≠ p → place' q = place q) : Placement place' S U' := by
  have hne : ∀ q ∈ S, q ≠ p → place' q ≠ x := by
    intro q hq hqp hqx
    rw [heq q hq hqp] at hqx
    exact hfresh (hqx ▸ h.mem q hq (hqx ▸ hx0))
  refine ⟨?_, ?_⟩
  · intro q hq hq0
    by_cases hqp : q = p
    · rw [hqp, hself]
      exact hx
    · rw [heq q hq hqp] at hq0 ⊢
      exact hU (h.mem q hq hq0)
  intro q hq r hr hq0 hqr
  by_cases hqp : q = p <;> by_cases hrp : r = p
  · rw [hqp, hrp]
  · rw [hqp, hself] at hqr
    exact absurd hqr.symm (hne r hr hrp)
  · rw [hrp, hself] at hqr
    exact absurd hqr (hne q hq hqp)
  · rw [heq q hq hqp] at hq0 hqr
    rw [heq r hr hrp] at hqr
    exact h.inj q hq r hr hq0 hqr

end Placement
