import Mathlib.Data.List.Nodup

/-!
# Circular doubly linked lists

`LinkedRing next prev head l`: from `head` the `next` pointers lead through the nodes of `l` in order and back to
`head`, and the `prev` pointers the other way round. A node can be unlinked and linked in behind the head;
a walk from the head finds the first node of `l` with a property. Read backwards, a ring is a ring again.
-/

universe u

section

variable {α : Type u}

/-- The pointers lead from `a` through `l` to `c`, and back. -/
def LinkedSeg (next prev : α → α) : α → List α → α → Prop
  | a, [], c => next a = c ∧ prev c = a
  | a, b :: l, c => next a = b ∧ prev b = a ∧ LinkedSeg next prev b l c

structure LinkedRing (next prev : α → α) (head : α) (l : List α) : Prop where
  seg : LinkedSeg next prev head l head
  nodup : (head :: l).Nodup

variable {next prev next' prev' : α → α} {a b c x head : α} {l xs ys : List α}

open Function

namespace LinkedSeg

theorem append : LinkedSeg next prev a (xs ++ b :: ys) c ↔ LinkedSeg next prev a xs b ∧ LinkedSeg next prev b ys c := by
  induction xs generalizing a with
  | nil => simp [LinkedSeg, and_assoc]
  | cons x xs ih => simp [LinkedSeg, ih, and_assoc]

section

variable (h : LinkedSeg next prev a l c)
include h

/-- Only the pointers on the way matter. -/
theorem congr (hn : ∀ x ∈ a :: l, next' x = next x) (hp : ∀ x ∈ l ++ [c], prev' x = prev x) :
    LinkedSeg next' prev' a l c := by
  induction l generalizing a with
  | nil => exact ⟨(hn a (by simp)).trans h.1, (hp c (by simp)).trans h.2⟩
  | cons b l ih =>
    refine ⟨(hn a (by simp)).trans h.1, (hp b (by simp)).trans h.2.1, ih h.2.2 ?_ ?_⟩
    · intro x hx
      exact hn x (List.mem_cons_of_mem _ hx)
    · intro x hx
      exact hp x (List.mem_cons_of_mem _ hx)

theorem reverse : LinkedSeg prev next c l.reverse a := by
  induction l generalizing a with
  | nil => exact ⟨h.2, h.1⟩
  | cons b l ih =>
    rw [List.reverse_cons]
    exact append.2 ⟨ih h.2.2, h.2.1, h.1⟩

/-- The node that `next` leads to first. -/
theorem next_eq : next a = (l ++ [c]).head (by simp) := by
  cases l with
  | nil => exact h.1
  | cons b l => exact h.1

/-- The node that `prev` leads to first. -/
theorem prev_eq : prev c = (a :: l).getLast (by simp) := by
  rw [h.reverse.next_eq, ← List.head_reverse (by simp)]
  simp [List.reverse_cons]

end

/-- Two stretches that meet in `b`, with `b` left out. -/
theorem bypass [DecidableEq α] (hx : LinkedSeg next prev a xs b) (hy : LinkedSeg next prev b ys c)
    (hn : (a :: (xs ++ ys)).Nodup) (hp : (xs ++ ys ++ [c]).Nodup) :
    LinkedSeg (update next (prev b) (next b)) (update prev (next b) (prev b)) a (xs ++ ys) c := by
  induction xs generalizing a with
  | nil =>
    obtain ⟨-, hprev⟩ := hx
    rw [hprev]
    cases ys with
    | nil =>
      rw [hy.1]
      exact ⟨by simp, by simp⟩
    | cons y ys =>
      obtain ⟨hnext, -, hy⟩ := hy
      rw [hnext]
      refine ⟨by simp, by simp, hy.congr ?_ ?_⟩
      · intro x hx
        refine update_of_ne ?_ _ _
        rintro rfl
        exact (List.nodup_cons.1 hn).1 hx
      intro x hx
      refine update_of_ne ?_ _ _
      rintro rfl
      exact (List.nodup_cons.1 hp).1 hx
  | cons x xs ih =>
    obtain ⟨hax, hxa, hx⟩ := hx
    have hprev : prev b ∈ x :: xs := hx.prev_eq ▸ List.getLast_mem _
    have hnext : next b ∈ ys ++ [c] := hy.next_eq ▸ List.head_mem _
    have hne : a ≠ prev b := by
      intro e
      exact (List.nodup_cons.1 hn).1 (e ▸ List.mem_append_left ys hprev)
    have hne' : x ≠ next b := by
      intro e
      rw [List.append_assoc] at hp
      exact (List.nodup_cons.1 hp).1 (e ▸ List.mem_append_right xs hnext)
    refine ⟨?_, ?_, ih hx (List.nodup_cons.1 hn).2 (List.nodup_cons.1 hp).2⟩
    · rw [update_of_ne hne, hax]
    · rw [update_of_ne hne', hxa]

end LinkedSeg

/-- The first node with `p` on the way from `x` along `next`; `none` if `fuel` runs out before `head`. -/
def LinkedRing.scan [DecidableEq α] (next : α → α) (head : α) (p : α → Bool) : Nat → α → Option (Option α)
  | 0, _ => none
  | fuel + 1, x => if x = head then some none else if p x then some (some x) else LinkedRing.scan next head p fuel (next x)

theorem LinkedRing.scan_of_seg [DecidableEq α] (p : α → Bool) (h : LinkedSeg next prev a l head) (hl : head ∉ l) :
    LinkedRing.scan next head p (l.length + 1) (next a) = some (l.find? p) := by
  induction l generalizing a with
  | nil => simp [LinkedRing.scan, h.1]
  | cons b l ih =>
    rw [List.mem_cons, not_or] at hl
    have hb : b ≠ head := Ne.symm hl.1
    rw [h.1, LinkedRing.scan, if_neg hb, List.find?_cons]
    cases hp : p b with
    | true => rfl
    | false => simpa [hp] using ih h.2.2 hl.2

namespace LinkedRing

section

variable (h : LinkedRing next prev head l)
include h

theorem reverse : LinkedRing prev next head l.reverse :=
  ⟨h.seg.reverse, by simpa using h.nodup⟩

theorem head_notMem : head ∉ l := (List.nodup_cons.1 h.nodup).1

theorem scan_eq [DecidableEq α] (p : α → Bool) : scan next head p (l.length + 1) (next head) = some (l.find? p) :=
  scan_of_seg p h.seg h.head_notMem

end

theorem nil (hn : next head = head) (hp : prev head = head) : LinkedRing next prev head [] := ⟨⟨hn, hp⟩, by simp⟩

variable [DecidableEq α]

/-- A node is linked in behind the head. -/
theorem insert (h : LinkedRing next prev head l) (hb : b ∉ head :: l) :
    LinkedRing (update (update next b (next head)) head b)
      (update (update prev b head) (next head) b) head (b :: l) := by
  rw [List.mem_cons, not_or] at hb
  obtain ⟨hbh, hbl⟩ := hb
  have hnd := h.nodup
  refine ⟨?_, ?_⟩
  · cases l with
    | nil =>
      have hn : next head = head := h.seg.1
      simp [LinkedSeg, hn, hbh]
    | cons x l =>
      obtain ⟨hn, -, hseg⟩ := h.seg
      rw [List.nodup_cons, List.nodup_cons, List.mem_cons, not_or] at hnd
      obtain ⟨⟨hhx, hhl⟩, hxl, -⟩ := hnd
      rw [List.mem_cons, not_or] at hbl
      have hxb : x ≠ b := Ne.symm hbl.1
      rw [hn]
      refine ⟨by simp, by simp [hbl.1], by simp [hbh], by simp, hseg.congr ?_ ?_⟩
      · intro y hy
        have hyh : y ≠ head := by
          rintro rfl
          rcases List.mem_cons.1 hy with rfl | hy
          · exact hhx rfl
          · exact hhl hy
        have hyb : y ≠ b := by
          rintro rfl
          rcases List.mem_cons.1 hy with rfl | hy
          · exact hxb rfl
          · exact hbl.2 hy
        simp [hyh, hyb]
      intro y hy
      have hyx : y ≠ x := by
        rintro rfl
        rcases List.mem_append.1 hy with hy | hy
        · exact hxl hy
        · exact hhx (List.mem_singleton.1 hy).symm
      have hyb : y ≠ b := by
        rintro rfl
        rcases List.mem_append.1 hy with hy | hy
        · exact hbl.2 hy
        · exact hbh (List.mem_singleton.1 hy)
      simp [hyx, hyb]
  · rw [List.nodup_cons, List.mem_cons, not_or, List.nodup_cons]
    rw [List.nodup_cons] at hnd
    exact ⟨⟨Ne.symm hbh, hnd.1⟩, hbl, hnd.2⟩

/-- A node is taken out: its neighbours are linked to each other. -/
theorem unlink (h : LinkedRing next prev head (xs ++ b :: ys)) :
    LinkedRing (update next (prev b) (next b)) (update prev (next b) (prev b)) head (xs ++ ys) := by
  obtain ⟨hx, hy⟩ := LinkedSeg.append.1 h.seg
  have hsub : (xs ++ ys).Sublist (xs ++ b :: ys) := List.Sublist.append_left (List.sublist_cons_self b ys) xs
  have hnd : (head :: (xs ++ ys)).Nodup := h.nodup.sublist (hsub.cons_cons head)
  refine ⟨hx.bypass hy hnd ?_, hnd⟩
  exact (List.perm_append_singleton head (xs ++ ys)).nodup_iff.2 hnd

end LinkedRing

end
