import Mathlib.Data.List.Chain
import Mathlib.Data.Set.Basic

/-!
# Circular lists in ascending order

Nodes are positions. `CircList next base top N`: following `next` from a node of `N` goes to the next larger
node, and from the largest back to `base`. A node can be inserted after the one below it, the node after a
given one can be taken out, and a walk that looks for a node comes closer to it with every step (`dist`).
-/

structure CircList (next : Nat → Nat) (base top : Nat) (N : Set Nat) : Prop where
  base_mem : base ∈ N
  low : ∀ a ∈ N, base ≤ a
  high : ∀ a ∈ N, a ≤ top
  next_mem : ∀ a ∈ N, next a ∈ N
  next_le : ∀ a ∈ N, a < next a → ∀ c ∈ N, a < c → next a ≤ c
  wrap : ∀ a ∈ N, ¬ a < next a → next a = base ∧ ∀ c ∈ N, c ≤ a

namespace CircList

open Function

variable {next next' : Nat → Nat} {base top : Nat} {N : Set Nat} {p b x f : Nat}

theorem congr (h : CircList next base top N) (hn : ∀ a ∈ N, next' a = next a) : CircList next' base top N := by
  refine ⟨h.base_mem, h.low, h.high, ?_, ?_, ?_⟩
  · intro a ha
    rw [hn a ha]
    exact h.next_mem a ha
  · intro a ha hlt
    rw [hn a ha] at hlt ⊢
    exact h.next_le a ha hlt
  · intro a ha hge
    rw [hn a ha] at hge ⊢
    exact h.wrap a ha hge

theorem grow (h : CircList next base top N) {top' : Nat} (ht : top ≤ top') : CircList next base top' N :=
  { h with high := fun a ha => (h.high a ha).trans ht }

theorem singleton (hn : next base = base) (ht : base ≤ top) : CircList next base top {base} := by
  refine ⟨rfl, ?_, ?_, ?_, ?_, ?_⟩
  · rintro a rfl
    exact Nat.le_refl a
  · rintro a rfl
    exact ht
  · rintro a rfl
    exact hn
  · rintro a rfl hlt
    omega
  · rintro a rfl _
    refine ⟨hn, ?_⟩
    rintro c rfl
    exact Nat.le_refl c

/-- No node lies strictly between a node and the next one. -/
theorem le_or_next_le (h : CircList next base top N) {a c : Nat} (ha : a ∈ N) (hc : c ∈ N) (hac : a < c) :
    a < next a ∧ next a ≤ c := by
  by_cases hlt : a < next a
  · exact ⟨hlt, h.next_le a ha hlt c hc hac⟩
  · have := (h.wrap a ha hlt).2 c hc
    omega

/-- A new node after `p`, the largest below it. -/
theorem insert (h : CircList next base top N) (hp : p ∈ N) (hpb : p < b) (hb : ∀ c ∈ N, p < c → b < c)
    (ht : b ≤ top) : CircList (update (update next b (next p)) p b) base top (insert b N) := by
  have hbN : b ∉ N := fun hm => Nat.lt_irrefl b (hb b hm hpb)
  have hnb : update (update next b (next p)) p b b = next p := by
    rw [update_of_ne hpb.ne', update_self]
  have hnp : update (update next b (next p)) p b p = b := update_self ..
  have hother : ∀ a, a ∈ N → a ≠ p → update (update next b (next p)) p b a = next a := by
    intro a ha e
    have e' : a ≠ b := fun e => hbN (e ▸ ha)
    rw [update_of_ne e, update_of_ne e']
  have hbase := h.low p hp
  refine ⟨.inr h.base_mem, ?_, ?_, ?_, ?_, ?_⟩
  · rintro a (rfl | ha)
    · omega
    · exact h.low a ha
  · rintro a (rfl | ha)
    · exact ht
    · exact h.high a ha
  · rintro a (rfl | ha)
    · rw [hnb]
      exact .inr (h.next_mem p hp)
    · by_cases e : a = p
      · rw [e, hnp]
        exact .inl rfl
      · rw [hother a ha e]
        exact .inr (h.next_mem a ha)
  · rintro a (rfl | ha) hlt c (rfl | hc) hac
    · omega
    · rw [hnb]
      exact (h.le_or_next_le hp hc (by omega)).2
    · by_cases e : a = p
      · rw [e, hnp]
      · rw [hother a ha e]
        by_cases hap : a < p
        · have := (h.le_or_next_le ha hp hap).2
          omega
        · have := hb a ha (by omega)
          omega
    · by_cases e : a = p
      · rw [e, hnp]
        exact (hb c hc (e ▸ hac)).le
      · rw [hother a ha e]
        exact (h.le_or_next_le ha hc hac).2
  rintro a (rfl | ha) hge
  · rw [hnb] at hge ⊢
    have hw : ¬ p < next p := fun hlt => hge (hb _ (h.next_mem p hp) hlt)
    refine ⟨(h.wrap p hp hw).1, ?_⟩
    rintro c (rfl | hc)
    · exact Nat.le_refl c
    · exact ((h.wrap p hp hw).2 c hc).trans hpb.le
  · by_cases e : a = p
    · rw [e, hnp] at hge
      exact absurd hpb hge
    · rw [hother a ha e] at hge ⊢
      obtain ⟨hn, hmax⟩ := h.wrap a ha hge
      refine ⟨hn, ?_⟩
      rintro c (rfl | hc)
      · have hpa := hmax p hp
        exact (hb a ha (by omega)).le
      · exact hmax c hc

/-- The node after `p` is taken out. -/
theorem erase (h : CircList next base top N) (hp : p ∈ N) (hx : next p = x) (hxb : x ≠ base) :
    p < x ∧ CircList (update next p (next x)) base top (N \ {x}) := by
  have hpx : p < x := by
    by_contra hge
    exact hxb (hx ▸ (h.wrap p hp (hx ▸ hge)).1)
  have hxN : x ∈ N := hx ▸ h.next_mem p hp
  have hbetween : ∀ c ∈ N, p < c → x ≤ c := fun c hc hpc => hx ▸ (h.le_or_next_le hp hc hpc).2
  have hnp : update next p (next x) p = next x := update_self ..
  have hother : ∀ a, a ≠ p → update next p (next x) a = next a := fun a e => update_of_ne e _ _
  have hne : ∀ a ∈ N, a ≠ p → next a ≠ x := by
    intro a ha e hax
    by_cases hlt : a < x
    · rcases Nat.lt_or_ge a p with hap | hap
      · have := (h.le_or_next_le ha hp hap).2
        omega
      · have := hbetween a ha (by omega)
        omega
    · exact hxb (hax ▸ (h.wrap a ha (by omega)).1)
  refine ⟨hpx, ⟨h.base_mem, fun e => hxb e.symm⟩, fun a ha => h.low a ha.1, fun a ha => h.high a ha.1, ?_, ?_, ?_⟩
  · rintro a ⟨ha, hax⟩
    by_cases e : a = p
    · rw [e, hnp]
      refine ⟨h.next_mem x hxN, ?_⟩
      intro ex
      have hnx : next x = x := ex
      exact hxb (hnx ▸ (h.wrap x hxN (by omega)).1)
    · rw [hother a e]
      exact ⟨h.next_mem a ha, hne a ha e⟩
  · rintro a ⟨ha, hax⟩ hlt c ⟨hc, hcx⟩ hac
    have hcx' : c ≠ x := hcx
    by_cases e : a = p
    · subst e
      rw [hnp]
      have := hbetween c hc hac
      exact (h.le_or_next_le hxN hc (by omega)).2
    · rw [hother a e]
      exact (h.le_or_next_le ha hc hac).2
  rintro a ⟨ha, hax⟩ hge
  by_cases e : a = p
  · subst e
    rw [hnp] at hge ⊢
    have hw : ¬ x < next x := by omega
    obtain ⟨hn, hmax⟩ := h.wrap x hxN hw
    refine ⟨hn, ?_⟩
    rintro c ⟨hc, hcx⟩
    have hcx' : c ≠ x := hcx
    by_contra hlt
    have := hbetween c hc (by omega)
    have := hmax c hc
    omega
  · rw [hother a e] at hge ⊢
    obtain ⟨hn, hmax⟩ := h.wrap a ha hge
    exact ⟨hn, fun c hc => hmax c hc.1⟩

/-- How far it is from `a` to `f`, going round. -/
def dist (base top f a : Nat) : Nat := if a ≤ f then f - a else top - a + (f - base) + 1

section

variable (h : CircList next base top N) {a : Nat}
include h

theorem dist_next (hp : p ∈ N) (hf : f ∈ N) (hne : p ≠ f) : dist base top f (next p) < dist base top f p := by
  have hlp := h.low p hp
  have hlf := h.low f hf
  have hhn := h.high _ (h.next_mem p hp)
  by_cases hlt : p < next p
  · by_cases hpf : p < f
    · have := h.next_le p hp hlt f hf hpf
      simp only [dist]
      rw [if_pos (by omega), if_pos (by omega)]
      omega
    · simp only [dist]
      rw [if_neg (by omega), if_neg (by omega)]
      omega
  · obtain ⟨hn, hmax⟩ := h.wrap p hp hlt
    have := hmax f hf
    simp only [dist, hn]
    rw [if_pos hlf, if_neg (by omega)]
    omega

/-- The node after `f` is the farthest from it. -/
theorem dist_le_next (hf : f ∈ N) (ha : a ∈ N) : dist base top f a ≤ dist base top f (next f) := by
  have hla := h.low a ha
  have hha := h.high a ha
  by_cases hlt : f < next f
  · simp only [dist]
    rw [if_neg (by omega : ¬ next f ≤ f)]
    by_cases haf : a ≤ f
    · rw [if_pos haf]
      omega
    · have := h.next_le f hf hlt a ha (by omega)
      rw [if_neg haf]
      omega
  · obtain ⟨hn, hmax⟩ := h.wrap f hf hlt
    have := hmax a ha
    simp only [dist, hn]
    rw [if_pos this, if_pos (h.low f hf)]
    omega

/-- What a step away from `p` leaves behind is `p` alone. -/
theorem dist_lt_iff (hp : p ∈ N) (hf : f ∈ N) (hne : p ≠ f) (ha : a ∈ N) :
    dist base top f a ≤ dist base top f p ↔ a = p ∨ dist base top f a ≤ dist base top f (next p) := by
  have hd := h.dist_next hp hf hne
  constructor
  · intro hle
    by_cases e : a = p
    · exact .inl e
    right
    have hla := h.low a ha
    have hlf := h.low f hf
    have hlp := h.low p hp
    have hha := h.high a ha
    have hhp := h.high p hp
    by_cases hlt : p < next p
    · have hhn := h.high _ (h.next_mem p hp)
      have hbet : p < a → next p ≤ a := h.next_le p hp hlt a ha
      have hbf : p < f → next p ≤ f := h.next_le p hp hlt f hf
      simp only [dist] at hle ⊢
      split at hle <;> split at hle <;> split <;> split <;> omega
    · obtain ⟨hn, hmax⟩ := h.wrap p hp hlt
      have := hmax a ha
      have := hmax f hf
      simp only [dist, hn, if_pos hlf] at hle ⊢
      split at hle <;> split at hle <;> split <;> omega
  · rintro (rfl | hle)
    · exact Nat.le_refl _
    · omega

/-- A search that goes round once and ends at `f`: it finds a node with `big`, or none of those it has passed is one.
`loop fuel pp p` stands at `p`, which comes after `pp`. -/
theorem search (hf : f ∈ N) (big : Nat → Prop) {ρ : Type} (loop : Nat → Nat → Nat → ρ)
    (found : Nat → Nat → ρ) (stop : Nat → ρ) (hfound : ∀ k pp p, big p → loop (k + 1) pp p = found pp p)
    (hstop : ∀ k pp, ¬ big f → loop (k + 1) pp f = stop k)
    (hnext : ∀ k pp p, ¬ big p → p ≠ f → loop (k + 1) pp p = loop k p (next p)) (k : Nat) :
    ∀ {pp p : Nat}, pp ∈ N → next pp = p → dist base top f p < k →
      (∃ pp' x, pp' ∈ N ∧ next pp' = x ∧ big x ∧ loop k pp p = found pp' x) ∨
      ((∀ c ∈ N, dist base top f c ≤ dist base top f p → ¬ big c) ∧
        ∃ k', k ≤ k' + dist base top f p + 1 ∧ loop k pp p = stop k') := by
  induction k with
  | zero => exact fun _ _ hlt => absurd hlt (Nat.not_lt_zero _)
  | succ k ih =>
    intro pp p hpp hptr hlt
    have hp : p ∈ N := hptr ▸ h.next_mem pp hpp
    by_cases hbig : big p
    · exact .inl ⟨pp, p, hpp, hptr, hbig, hfound k pp p hbig⟩
    by_cases e : p = f
    · subst e
      refine .inr ⟨?_, k, by omega, hstop k pp hbig⟩
      intro c hc hd
      have hcp : c = p := by
        simp only [dist, Nat.le_refl, if_true, Nat.sub_self] at hd
        split at hd <;> omega
      rwa [hcp]
    have hd := h.dist_next hp hf e
    rw [hnext k pp p hbig e]
    obtain hres | ⟨hall, k', hk', hres⟩ := ih hp rfl (by omega)
    · exact .inl hres
    refine .inr ⟨?_, k', by omega, hres⟩
    intro c hc hdc
    obtain rfl | hdc := (h.dist_lt_iff hp hf e hc).1 hdc
    · exact hbig
    · exact hall c hc hdc

/-- The nodes from `a` on, by induction on the room above it. -/
theorem exists_list_from (n : Nat) :
    ∀ {a : Nat}, a ∈ N → top - a < n → ∃ l, (a :: l).Pairwise (· < ·) ∧ (∀ c, c ∈ a :: l ↔ c ∈ N ∧ a ≤ c) ∧
      (a :: l).IsChain (fun a b => next a = b) ∧ next ((a :: l).getLast (List.cons_ne_nil a l)) = base := by
  induction n with
  | zero => exact fun _ hlt => absurd hlt (Nat.not_lt_zero _)
  | succ n ih =>
    intro a ha hn
    by_cases hup : a < next a
    · have hhigh := h.high _ (h.next_mem a ha)
      obtain ⟨l, hsorted, hmem, hchain, hlast⟩ := ih (h.next_mem a ha) (by omega)
      refine ⟨next a :: l, List.pairwise_cons.2 ⟨?_, hsorted⟩, ?_, List.isChain_cons_cons.2 ⟨rfl, hchain⟩, ?_⟩
      · intro c hc
        have := ((hmem c).1 hc).2
        omega
      · intro c
        rw [List.mem_cons, hmem c]
        constructor
        · rintro (rfl | ⟨hc, hle⟩)
          · exact ⟨ha, Nat.le_refl c⟩
          · exact ⟨hc, by omega⟩
        rintro ⟨hc, hle⟩
        by_cases e : c = a
        · exact .inl e
        · exact .inr ⟨hc, (h.le_or_next_le ha hc (by omega)).2⟩
      · rw [List.getLast_cons (List.cons_ne_nil _ l)]
        exact hlast
    obtain ⟨hwrap, hmax⟩ := h.wrap a ha hup
    refine ⟨[], List.pairwise_singleton _ a, ?_, List.isChain_singleton a, hwrap⟩
    intro c
    rw [List.mem_singleton]
    constructor
    · rintro rfl
      exact ⟨ha, Nat.le_refl c⟩
    · rintro ⟨hc, hle⟩
      exact Nat.le_antisymm (hmax c hc) hle

/-- The nodes in ascending order: each points to the next, and the last one back to the base. -/
theorem exists_list :
    ∃ l, (base :: l).Pairwise (· < ·) ∧ (∀ c, c ∈ base :: l ↔ c ∈ N) ∧
      (base :: l).IsChain (fun a b => next a = b) ∧ next ((base :: l).getLast (List.cons_ne_nil base l)) = base := by
  obtain ⟨l, hsorted, hmem, hchain, hlast⟩ := h.exists_list_from (top - base + 1) h.base_mem (Nat.lt_succ_self _)
  exact ⟨l, hsorted, fun c => (hmem c).trans (and_iff_left_of_imp (h.low c)), hchain, hlast⟩

end

end CircList
