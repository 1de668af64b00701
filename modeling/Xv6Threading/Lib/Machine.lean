import Mathlib.Order.Basic

/-!
# Labelled machines, guarded runs and their invariants

A machine is a set of initial states and a partial step function on labels: the label carries
everything that is not determined by the state (who moves, what an allocator returns, what is
drawn), so a run is a list of labels and can be evaluated.

`ReachBy G` is reachability by runs whose steps all meet `G`, a condition on the state *before*
the step and the label. Plain reachability is `Reach`. An invariant is proved once per machine
with `ReachBy.inv`; a run that is meant to exist is exhibited with `reachBy_of_run`.
-/

universe u v

structure Machine (σ : Type u) (α : Type v) where
  init : σ → Prop
  step : σ → α → Option σ

namespace Machine

variable {σ : Type u} {α : Type v} (M : Machine σ α)

/-- Reached from an initial state by steps that all meet `G`. -/
inductive ReachBy (G : σ → α → Prop) : σ → Prop
  | init {s : σ} (h : M.init s) : ReachBy G s
  | step {s t : σ} {a : α} (h : ReachBy G s) (hg : G s a) (hs : M.step s a = some t) : ReachBy G t

/-- Reached by any run. -/
def Reach : σ → Prop := M.ReachBy fun _ _ => True

/-- The state after a list of labels, `none` as soon as one is not enabled or breaks `G`. -/
def run (G : σ → α → Prop) [∀ s a, Decidable (G s a)] : σ → List α → Option σ
  | s, [] => some s
  | s, a :: as => if G s a then (M.step s a).bind fun t => run G t as else none

variable {M}

/-- Invariant rule: what holds initially and is kept by every guarded step holds in every state
a guarded run reaches. -/
theorem ReachBy.inv {G : σ → α → Prop} {I : σ → Prop} (h0 : ∀ s, M.init s → I s)
    (hI : ∀ s a t, I s → G s a → M.step s a = some t → I t) {s : σ} (h : M.ReachBy G s) : I s := by
  induction h with
  | init h => exact h0 _ h
  | step _ hg hs ih => exact hI _ _ _ ih hg hs

theorem ReachBy.mono {G G' : σ → α → Prop} (hG : ∀ s a, G s a → G' s a) {s : σ} (h : M.ReachBy G s) :
    M.ReachBy G' s := by
  induction h with
  | init h => exact .init h
  | step _ hg hs ih => exact ih.step (hG _ _ hg) hs

theorem Reach.init {s : σ} (h : M.init s) : M.Reach s := ReachBy.init h

theorem Reach.inv {I : σ → Prop} (h0 : ∀ s, M.init s → I s)
    (hI : ∀ s a t, I s → M.step s a = some t → I t) {s : σ} (h : M.Reach s) : I s :=
  ReachBy.inv h0 (fun s a t hs _ hst => hI s a t hs hst) h

/-- A run that evaluates to `some t` reaches `t`. -/
theorem reachBy_of_run {G : σ → α → Prop} [∀ s a, Decidable (G s a)] :
    ∀ (as : List α) {s t : σ}, M.ReachBy G s → M.run G s as = some t → M.ReachBy G t
  | [], s, t, h, hr => by
    simp only [run, Option.some.injEq] at hr
    exact hr ▸ h
  | a :: as, s, t, h, hr => by
    simp only [run] at hr
    split at hr
    next hg =>
      obtain ⟨u, hu, hr⟩ := Option.bind_eq_some_iff.1 hr
      exact reachBy_of_run as (h.step hg hu) hr
    · cases hr

/-- A run whose end state passes the test `p` exhibits a reached state with `p`. -/
theorem exists_reachBy {G : σ → α → Prop} [∀ s a, Decidable (G s a)] {s : σ} (h : M.init s)
    (as : List α) (p : σ → Bool) (hr : (M.run G s as).any p = true) : ∃ t, M.ReachBy G t ∧ p t = true := by
  obtain ⟨t, ht, hp⟩ := (Option.any_eq_true _ _).1 hr
  exact ⟨t, reachBy_of_run as (.init h) ht, hp⟩

end Machine
