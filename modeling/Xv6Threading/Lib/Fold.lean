import Mathlib.Data.Fin.Basic

/-!
# Loops over a table

A C loop `for (p = table; p < &table[n]; p++)` that updates an accumulator is `Fin.foldl n`. What
holds after every iteration, indexed by the position reached, holds at `n` when the loop ends.
-/

universe u

theorem Fin.foldl_inv {α : Type u} {n : Nat} (f : α → Fin n → α) (P : Nat → α → Prop) (x : α) (h0 : P 0 x)
    (hstep : ∀ (i : Fin n) (a : α), P i a → P (i + 1) (f a i)) : P n (Fin.foldl n f x) := by
  induction n with
  | zero => simpa using h0
  | succ n ih =>
    rw [Fin.foldl_succ_last]
    exact hstep (Fin.last n) _ (ih (fun a i => f a i.castSucc) fun i a => hstep i.castSucc a)
