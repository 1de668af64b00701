import Mathlib.Order.Basic

/-!
# Redo logs

A store `d : K → V` has home blocks and, outside them, log slots. `Pending` says that `d` stands for
the contents `C` of the home blocks: the `n` entries of the log hold the values of `C` that may not have
been copied home yet, and every home block without an entry has its value. Copying an entry home keeps
it, in any order and any number of times, which is why recovery may be repeated.
-/

namespace Redo

open Function

variable {K V : Type} [DecidableEq K]

/-- Writes applied in order. -/
def applyAll (C : K → V) (ws : List (K × V)) : K → V := ws.foldl (fun C w => update C w.1 w.2) C

@[simp] theorem applyAll_nil (C : K → V) : applyAll C [] = C := rfl

theorem applyAll_append (C : K → V) (ws vs : List (K × V)) : applyAll C (ws ++ vs) = applyAll (applyAll C ws) vs :=
  List.foldl_append

theorem applyAll_concat (C : K → V) (ws : List (K × V)) (w : K × V) :
    applyAll C (ws ++ [w]) = update (applyAll C ws) w.1 w.2 := by
  rw [applyAll_append]
  rfl

/-- What is not written keeps its value. -/
theorem applyAll_of_ne {b : K} (ws : List (K × V)) :
    ∀ (C : K → V), (∀ w ∈ ws, w.1 ≠ b) → applyAll C ws b = C b := by
  induction ws with
  | nil => exact fun C _ => rfl
  | cons w ws ih =>
    intro C h
    rw [List.forall_mem_cons] at h
    show applyAll (update C w.1 w.2) ws b = C b
    rw [ih _ h.2, update_of_ne h.1.symm]

/-- `d` stands for the contents `C`, once the entries `i < n` are copied from `slot i` to `block i`. -/
structure Pending (home : K → Prop) (slot : Nat → K) (n : Nat) (block : Nat → K) (d C : K → V) : Prop where
  slots : ∀ i, i < n → ¬ home (slot i)
  homes : ∀ i, i < n → home (block i)
  log : ∀ i, i < n → d (slot i) = C (block i)
  rest : ∀ b, home b → (∀ i, i < n → block i ≠ b) → d b = C b

namespace Pending

variable {home : K → Prop} {slot : Nat → K} {n : Nat} {block : Nat → K} {d C : K → V}

omit [DecidableEq K] in
/-- With no entry, the home blocks have their values. -/
theorem zero_iff : Pending home slot 0 block d C ↔ ∀ b, home b → d b = C b :=
  ⟨fun h b hb => h.rest b hb fun _ hi => absurd hi (Nat.not_lt_zero _),
    fun h => ⟨fun _ hi => absurd hi (Nat.not_lt_zero _), fun _ hi => absurd hi (Nat.not_lt_zero _),
      fun _ hi => absurd hi (Nat.not_lt_zero _), fun b hb _ => h b hb⟩⟩

/-- One entry is copied home. -/
theorem install (h : Pending home slot n block d C) {i : Nat} (hi : i < n) :
    Pending home slot n block (update d (block i) (d (slot i))) C := by
  have hne : ∀ j, j < n → slot j ≠ block i := fun j hj e => h.slots j hj (e ▸ h.homes i hi)
  refine ⟨h.slots, h.homes, ?_, ?_⟩
  · intro j hj
    rw [update_of_ne (hne j hj)]
    exact h.log j hj
  · intro b hb hn
    rw [update_of_ne (hn i hi).symm]
    exact h.rest b hb hn

/-- Once all entries are copied, the log is not needed any more. -/
theorem settled (h : Pending home slot n block d C) (hi : ∀ i, i < n → d (block i) = C (block i)) :
    ∀ b, home b → d b = C b := by
  intro b hb
  by_cases hn : ∀ i, i < n → block i ≠ b
  · exact h.rest b hb hn
  · simp only [not_forall, not_not] at hn
    obtain ⟨i, hin, rfl⟩ := hn
    exact hi i hin

/-- The commit point: a log with the new values of all blocks that change. -/
theorem commit {ws : List (K × V)} (h : ∀ b, home b → d b = C b) (hs : ∀ i, i < n → ¬ home (slot i))
    (hb : ∀ i, i < n → home (block i)) (hl : ∀ i, i < n → d (slot i) = applyAll C ws (block i))
    (hw : ∀ w ∈ ws, ∃ i, i < n ∧ block i = w.1) : Pending home slot n block d (applyAll C ws) := by
  refine ⟨hs, hb, hl, ?_⟩
  intro b hbb hn
  rw [h b hbb, applyAll_of_ne]
  intro w hww e
  obtain ⟨i, hi, hiw⟩ := hw w hww
  exact hn i hi (hiw.trans e)

omit [DecidableEq K] in
/-- Only the entries below `n` matter. -/
theorem congr (h : Pending home slot n block d C) (block' : Nat → K) (hb : ∀ i, i < n → block' i = block i) :
    Pending home slot n block' d C := by
  refine ⟨h.slots, fun i hi => hb i hi ▸ h.homes i hi, fun i hi => by rw [hb i hi]; exact h.log i hi,
    fun b hbb hn => h.rest b hbb fun i hi => hb i hi ▸ hn i hi⟩

end Pending

end Redo
