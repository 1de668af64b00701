import Mathlib.Data.List.Nodup

/-!
# Singly linked lists

`Chain next p l`: from the pointer `p` the `next` pointers lead through the nodes of `l` to the end. A pointer in the
list is either the first one or that in a node: `deref` reads it, `store` writes it. Writing a node to the last pointer
appends it.
-/

universe u

variable {α : Type u} {next next' : α → Option α} {p : Option α} {a : α} {l l₁ l₂ : List α}

def Chain (next : α → Option α) : Option α → List α → Prop
  | p, [] => p = none
  | p, a :: l => p = some a ∧ Chain next (next a) l

namespace Chain

open Function

/-- The pointer in the node `pp`, or the first pointer. -/
def deref (next : α → Option α) (p : Option α) : Option α → Option α
  | none => p
  | some c => next c

def store [DecidableEq α] (next : α → Option α) (p : Option α) (a : α) : Option α → (α → Option α) × Option α
  | none => (next, some a)
  | some c => (update next c (some a), p)

theorem head_eq (h : Chain next p l) : p = l.head? := by
  cases l with
  | nil => exact h
  | cons a l => exact h.1

/-- Only the pointers in the nodes of the list matter. -/
theorem congr (h : Chain next p l) (hnext : ∀ x ∈ l, next' x = next x) : Chain next' p l := by
  induction l generalizing p with
  | nil => exact h
  | cons b l ih =>
    refine ⟨h.1, ?_⟩
    rw [hnext b List.mem_cons_self]
    exact ih h.2 fun x hx => hnext x (List.mem_cons_of_mem b hx)

/-- After the nodes of `l₁` the pointer leads to what is left. -/
theorem deref_getLast (h : Chain next p (l₁ ++ l₂)) : deref next p l₁.getLast? = l₂.head? := by
  induction l₁ generalizing p with
  | nil => exact h.head_eq
  | cons b l₁ ih =>
    have hrest := ih h.2
    cases l₁ with
    | nil => exact hrest
    | cons c l₁ =>
      rw [List.getLast?_cons_cons, ← hrest]
      rw [List.getLast?_eq_some_getLast (List.cons_ne_nil c l₁)]
      rfl

variable [DecidableEq α]

theorem snoc (h : Chain next p l) (hl : l.Nodup) (ha : a ∉ l) (hend : next a = none) :
    Chain (store next p a l.getLast?).1 (store next p a l.getLast?).2 (l ++ [a]) := by
  induction l generalizing p with
  | nil => exact ⟨rfl, hend⟩
  | cons b l ih =>
    obtain ⟨hb, hl⟩ := List.nodup_cons.1 hl
    have hrest := ih h.2 hl fun hin => ha (List.mem_cons_of_mem b hin)
    have hab : a ≠ b := fun hab => ha (hab ▸ List.mem_cons_self)
    cases l with
    | nil =>
      refine ⟨h.1, ?_⟩
      show Chain (update next b (some a)) (update next b (some a) b) [a]
      rw [update_self]
      refine ⟨rfl, ?_⟩
      rw [update_of_ne hab]
      exact hend
    | cons c l =>
      rw [List.getLast?_cons_cons]
      have hx := List.getLast?_eq_some_getLast (List.cons_ne_nil c l)
      generalize (c :: l).getLast (List.cons_ne_nil c l) = x at hx
      have hbx : b ≠ x := fun hbx => hb (hbx ▸ List.mem_of_getLast? hx)
      rw [hx] at hrest ⊢
      refine ⟨h.1, ?_⟩
      show Chain (update next x (some a)) (update next x (some a) b) (c :: l ++ [a])
      rw [update_of_ne hbx]
      exact hrest

end Chain
