import Mathlib.Data.List.Basic

/-!
# Stores in order

A memory is a function from addresses to values; a list of stores is carried out from the front. Where two stores hit the
same address, the later one stays.
-/

open Function

universe u v

variable {A : Type u} {V : Type v} [DecidableEq A] {l : List (A × V)}

def storeAll (m : A → V) (l : List (A × V)) : A → V := l.foldl (fun m p => update m p.1 p.2) m

@[simp] theorem storeAll_nil (m : A → V) : storeAll m [] = m := rfl

@[simp] theorem storeAll_cons (m : A → V) (p : A × V) (l : List (A × V)) :
    storeAll m (p :: l) = storeAll (update m p.1 p.2) l := rfl

/-- What no store hits stays. -/
theorem storeAll_of_forall_ne : ∀ {m : A → V} {x : A}, (∀ p ∈ l, p.1 ≠ x) → storeAll m l x = m x := by
  induction l with
  | nil =>
    intro m x _
    rfl
  | cons p l ih =>
    intro m x h
    have hp := h p List.mem_cons_self
    rw [storeAll_cons, ih fun q hq => h q (List.mem_cons_of_mem p hq), update_of_ne hp.symm]

/-- The last store to an address stays. -/
theorem storeAll_getElem : ∀ {m : A → V} {i : Nat} (hi : i < l.length),
    (∀ j (hj : j < l.length), i < j → l[j].1 ≠ l[i].1) → storeAll m l l[i].1 = l[i].2 := by
  induction l with
  | nil =>
    intro m i hi
    cases hi
  | cons p l ih =>
    intro m i hi hlast
    rw [storeAll_cons]
    cases i with
    | zero =>
      rw [storeAll_of_forall_ne, List.getElem_cons_zero, update_self]
      intro q hq
      obtain ⟨j, hj, rfl⟩ := List.getElem_of_mem hq
      exact hlast (j + 1) (Nat.succ_lt_succ hj) (Nat.succ_pos j)
    | succ i =>
      refine ih (Nat.lt_of_succ_lt_succ hi) fun j hj hij => ?_
      exact hlast (j + 1) (Nat.succ_lt_succ hj) (Nat.succ_lt_succ hij)
