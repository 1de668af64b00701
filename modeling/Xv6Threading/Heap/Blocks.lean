import Mathlib.Data.Nat.Find
import Xv6Threading.Lib.CircList
import Xv6Threading.Heap.Umalloc

/-!
# The free list is a ring of disjoint blocks

`N` is the set of nodes of the free list, the base included, and `A` that of the headers of allocated
blocks. The nodes form a ring in ascending order (`CircList`), blocks lie below the break and do not overlap,
and no two free blocks touch. `free` and `malloc` are followed through these sets: `free` moves a header
from `A` to `N` and joins it with its neighbours, `malloc` cuts one out of the first block that is large
enough.
-/

namespace Xv6.Umalloc

open Function

variable {hdr : Nat → Header} {base brk : Nat} {N A X : Set Nat} {a p bp q : Nat} {t : Nat}

structure Blocks (hdr : Nat → Header) (base brk : Nat) (N A : Set Nat) : Prop where
  ring : CircList (fun a => (hdr a).ptr) base brk N
  base_size : (hdr base).size = 0
  low : ∀ a ∈ A, base < a
  disj : ∀ a ∈ N, a ∉ A
  pos : ∀ a, a ∈ N ∨ a ∈ A → a ≠ base → 0 < (hdr a).size
  top : ∀ a, a ∈ N ∨ a ∈ A → a + 8 * (hdr a).size ≤ brk
  apart : ∀ a b, a ∈ N ∨ a ∈ A → b ∈ N ∨ b ∈ A → a < b → a + 8 * (hdr a).size ≤ b

/-- Nodes outside `X` do not touch the next one. -/
def Gap (hdr : Nat → Header) (N X : Set Nat) : Prop :=
  ∀ a ∈ N, a ∉ X → a < (hdr a).ptr → a + 8 * (hdr a).size < (hdr a).ptr

/-- The list with the base alone. -/
theorem Blocks.single (hptr : (hdr base).ptr = base) (hsize : (hdr base).size = 0) (hle : base ≤ brk) :
    Blocks hdr base brk {base} ∅ ∧ Gap hdr {base} ∅ := by
  have hmem : ∀ a : Nat, a ∈ ({base} : Set Nat) ∨ a ∈ (∅ : Set Nat) → a = base := by
    rintro a (ha | ha)
    · exact ha
    · exact absurd ha (Set.notMem_empty a)
  refine ⟨⟨CircList.singleton hptr hle, hsize, fun a ha => absurd ha (Set.notMem_empty a), fun a _ => Set.notMem_empty a,
    fun a ha hne => absurd (hmem a ha) hne, ?_, ?_⟩, ?_⟩
  · intro a ha
    rw [hmem a ha, hsize]
    exact hle
  · intro a b ha hb hab
    rw [hmem a ha, hmem b hb] at hab
    omega
  · rintro a rfl _ hup
    omega

/-! ## Where a block belongs -/

/-- The largest node below a position. -/
theorem exists_below (h : CircList (fun a => (hdr a).ptr) base brk N) (hb : base < bp) (hn : bp ∉ N) :
    ∃ t ∈ N, t < bp ∧ ∀ c ∈ N, t < c → bp < c := by
  classical
  have hle : base ≤ bp - 1 := by omega
  have hmem : Nat.findGreatest (· ∈ N) (bp - 1) ∈ N := Nat.findGreatest_spec hle h.base_mem
  have hlt := Nat.findGreatest_le (P := (· ∈ N)) (bp - 1)
  refine ⟨_, hmem, by omega, ?_⟩
  intro c hc htc
  by_contra hge
  have hne : c ≠ bp := fun e => hn (e ▸ hc)
  have := Nat.le_findGreatest (P := (· ∈ N)) (show c ≤ bp - 1 by omega) hc
  omega

/-- The loop of `free` finds it. -/
theorem place_spec (h : CircList (fun a => (hdr a).ptr) base brk N) (hb : base < bp) (ht : t ∈ N)
    (htb : t < bp) (hmax : ∀ c ∈ N, t < c → bp < c) (n : Nat) :
    ∀ {p : Nat}, p ∈ N → CircList.dist base brk t p < n → place hdr bp n p = some t := by
  induction n with
  | zero => exact fun _ hlt => absurd hlt (Nat.not_lt_zero _)
  | succ n ih =>
    intro p hp hlt
    have hle : p < bp → p ≤ t := by
      intro hpb
      by_contra hgt
      have := hmax p hp (by omega)
      omega
    rw [place]
    by_cases e : p = t
    · subst e
      by_cases hup : p < (hdr p).ptr
      · rw [if_pos ⟨htb, hmax _ (h.next_mem p hp) hup⟩]
      · rw [if_neg (by omega), if_pos ⟨by omega, .inl htb⟩]
    have hd := h.dist_next hp ht e
    rw [if_neg, if_neg, ih (h.next_mem p hp) (by omega)]
    · rintro ⟨hge, hor⟩
      obtain ⟨hptr, htop⟩ := h.wrap p hp (by omega)
      have := htop t ht
      rcases hor with hgt | hlt'
      · have := hle hgt
        omega
      · omega
    · rintro ⟨hpb, hbq⟩
      have := hle hpb
      have := (h.le_or_next_le hp ht (by omega)).2
      omega

/-! ## Inserting and joining -/

def ins (hdr : Nat → Header) (p bp : Nat) : Nat → Header :=
  update (update hdr bp ⟨(hdr p).ptr, (hdr bp).size⟩) p ⟨bp, (hdr p).size⟩

/-- A node takes over the next one if they touch. -/
def join (hdr : Nat → Header) (a : Nat) : Nat → Header :=
  if a + 8 * (hdr a).size = (hdr a).ptr then
    update hdr a ⟨(hdr (hdr a).ptr).ptr, (hdr a).size + (hdr (hdr a).ptr).size⟩
  else hdr

/-- What `free` does to the headers, in three steps. -/
theorem link_eq (hdr : Nat → Header) (hne : p ≠ bp) (hq : (hdr p).ptr ≠ bp)
    (hqp : bp + 8 * (hdr bp).size = (hdr p).ptr → (hdr p).ptr ≠ p) :
    link hdr p bp = join (join (ins hdr p bp) bp) p := by
  have hbp : ins hdr p bp bp = ⟨(hdr p).ptr, (hdr bp).size⟩ := by
    rw [ins, update_of_ne hne.symm, update_self]
  -- the first test is that of the first join; only the pointer of `p` is not set yet
  have hnext : join (ins hdr p bp) bp = update (linkNext hdr p bp) p ⟨bp, (hdr p).size⟩ := by
    unfold join linkNext blockEnd
    rw [hbp]
    split
    next hr =>
      have hqv : ins hdr p bp (hdr p).ptr = hdr (hdr p).ptr := by
        rw [ins, update_of_ne (hqp hr), update_of_ne hq]
      rw [hqv, ins, update_comm hne.symm, update_idem, update_comm hne]
    · rfl
  have hp : linkNext hdr p bp p = hdr p := by
    unfold linkNext
    split <;> rw [update_of_ne hne]
  rw [hnext, link, linkPrev, blockEnd, join, hp, update_self, update_of_ne hne.symm, update_idem]

theorem ins_size (hdr : Nat → Header) (p bp x : Nat) : (ins hdr p bp x).size = (hdr x).size := by
  by_cases e : x = p
  · simp [ins, e]
  by_cases e' : x = bp
  · subst e'
    simp [ins, e]
  · simp [ins, e, e']

theorem ins_of_ne {x : Nat} (hp : x ≠ p) (hb : x ≠ bp) : ins hdr p bp x = hdr x := by simp [ins, hp, hb]

/-- A header is freed: it becomes the node after `p`. -/
theorem Blocks.ins (h : Blocks hdr base brk N A) (hbp : bp ∈ A) (hp : p ∈ N) (hpb : p < bp)
    (hmax : ∀ c ∈ N, p < c → bp < c) : Blocks (ins hdr p bp) base brk (insert bp N) (A \ {bp}) := by
  have hmem : ∀ a, a ∈ insert bp N ∨ a ∈ A \ {bp} → a ∈ N ∨ a ∈ A := by
    rintro a ((rfl | ha) | ha)
    · exact .inr hbp
    · exact .inl ha
    · exact .inr ha.1
  have hring := h.ring.insert hp hpb hmax (by have := h.top bp (.inr hbp); omega)
  refine ⟨hring.congr ?_, by rw [ins_size]; exact h.base_size, fun a ha => h.low a ha.1, ?_, ?_, ?_, ?_⟩
  · intro a _
    by_cases e : a = p
    · simp [Umalloc.ins, e]
    by_cases e' : a = bp
    · subst e'
      simp [Umalloc.ins, e]
    · simp [Umalloc.ins, e, e']
  · rintro a (rfl | ha) ⟨hA, hne⟩
    · exact hne rfl
    · exact h.disj a ha hA
  · intro a ha
    rw [ins_size]
    exact h.pos a (hmem a ha)
  · intro a ha
    rw [ins_size]
    exact h.top a (hmem a ha)
  · intro a b ha hb hab
    rw [ins_size]
    exact h.apart a b (hmem a ha) (hmem b hb) hab

theorem Gap.ins (h : Gap hdr N ∅) : Gap (Umalloc.ins hdr p bp) (insert bp N) {p, bp} := by
  rintro a ha hX hlt
  simp only [Set.mem_insert_iff, Set.mem_singleton_iff, not_or] at hX
  rw [ins_of_ne hX.1 hX.2] at hlt ⊢
  exact h a (ha.resolve_left hX.2) (Set.notMem_empty a) hlt

/-- Joining keeps the blocks, and closes the gap after `a`. -/
theorem Blocks.join (h : Blocks hdr base brk N A) (hg : Gap hdr N X) (ha : a ∈ N)
    (hup : a < (hdr a).ptr ∨ a ≠ base) (hq : a + 8 * (hdr a).size = (hdr a).ptr → (hdr a).ptr ∉ X) :
    ∃ M, M ⊆ N ∧ a ∈ M ∧ Blocks (join hdr a) base brk M A ∧ Gap (join hdr a) M (X \ {a}) ∧
      (M = N ∧ join hdr a = hdr ∨ a + 8 * (hdr a).size = (hdr a).ptr ∧ M = N \ {(hdr a).ptr} ∧
        (join hdr a a).size = (hdr a).size + (hdr (hdr a).ptr).size) := by
  have hlow := h.ring.low a ha
  by_cases ht : a + 8 * (hdr a).size = (hdr a).ptr
  · have hj : Umalloc.join hdr a =
        update hdr a ⟨(hdr (hdr a).ptr).ptr, (hdr a).size + (hdr (hdr a).ptr).size⟩ := by
      rw [Umalloc.join, if_pos ht]
    have hab : a ≠ base := by
      rintro rfl
      rw [h.base_size] at ht
      omega
    have hpos := h.pos a (.inl ha) hab
    have hqb : (hdr a).ptr ≠ base := by omega
    obtain ⟨haq, hring⟩ := h.ring.erase ha rfl hqb
    have hqN := h.ring.next_mem a ha
    have hself : (Umalloc.join hdr a a) = ⟨(hdr (hdr a).ptr).ptr, (hdr a).size + (hdr (hdr a).ptr).size⟩ := by
      rw [hj, update_self]
    have hother : ∀ c, c ≠ a → Umalloc.join hdr a c = hdr c := fun c hc => by rw [hj, update_of_ne hc]
    have hmem : ∀ c, c ∈ N \ {(hdr a).ptr} ∨ c ∈ A → c ∈ N ∨ c ∈ A := fun c hc => hc.imp_left And.left
    have hne : ∀ c, c ∈ N \ {(hdr a).ptr} ∨ c ∈ A → c ≠ (hdr a).ptr := by
      rintro c (hc | hc) rfl
      · exact hc.2 rfl
      · exact h.disj _ hqN hc
    have hqtop := h.top _ (.inl hqN)
    refine ⟨N \ {(hdr a).ptr}, fun _ hc => hc.1, ⟨ha, fun e => haq.ne e⟩, ⟨hring.congr ?_, ?_, h.low,
      fun c hc => h.disj c hc.1, ?_, ?_, ?_⟩, ?_, .inr ⟨ht, rfl, by rw [hself]⟩⟩
    · intro c _
      by_cases e : c = a
      · simp [e, hself]
      · simp [hother c e, e]
    · rw [hother base hab.symm]
      exact h.base_size
    · intro c hc hcb
      by_cases e : c = a
      · rw [e, hself]
        simp only
        omega
      · rw [hother c e]
        exact h.pos c (hmem c hc) hcb
    · intro c hc
      by_cases e : c = a
      · rw [e, hself]
        simp only
        omega
      · rw [hother c e]
        exact h.top c (hmem c hc)
    · intro c d hc hd hcd
      by_cases e : c = a
      · subst e
        rw [hself]
        simp only
        have h1 := h.apart c d (.inl ha) (hmem d hd) hcd
        have h2 := hne d hd
        have h3 := h.apart (hdr c).ptr d (.inl hqN) (hmem d hd) (by omega)
        omega
      · rw [hother c e]
        exact h.apart c d (hmem c hc) (hmem d hd) hcd
    intro c hc hcX hlt
    by_cases e : c = a
    · subst e
      rw [hself] at hlt ⊢
      simp only at hlt ⊢
      have hqup : (hdr c).ptr < (hdr (hdr c).ptr).ptr := by
        by_contra hge
        have := (h.ring.wrap _ hqN hge).1
        omega
      have := hg _ hqN (hq ht) hqup
      omega
    · rw [hother c e] at hlt ⊢
      exact hg c hc.1 (fun hX => hcX ⟨hX, e⟩) hlt
  have hj : Umalloc.join hdr a = hdr := by rw [Umalloc.join, if_neg ht]
  refine ⟨N, subset_rfl, ha, by rwa [hj], ?_, .inl ⟨rfl, hj⟩⟩
  intro c hc hcX hlt
  rw [hj] at hlt ⊢
  by_cases e : c = a
  · subst e
    have := h.apart c _ (.inl hc) (.inl (h.ring.next_mem c hc)) hlt
    omega
  · exact hg c hc (fun hX => hcX ⟨hX, e⟩) hlt

theorem join_of_ne {c : Nat} (h : c ≠ a) : join hdr a c = hdr c := by
  unfold join
  split
  · rw [update_of_ne h]
  · rfl

/-! ## `free` -/

/-- An allocated block goes back to the free list, alone or joined with its neighbours. -/
theorem Blocks.link (h : Blocks hdr base brk N A) (hg : Gap hdr N ∅) (hbp : bp ∈ A) (ht : t ∈ N)
    (htb : t < bp) (hmax : ∀ c ∈ N, t < c → bp < c) :
    ∃ M a, M ⊆ insert bp N ∧ t ∈ M ∧ Blocks (Umalloc.link hdr t bp) base brk M (A \ {bp}) ∧ Gap (Umalloc.link hdr t bp) M ∅ ∧
      a ∈ M ∧ a ≤ bp ∧ bp + 8 * (hdr bp).size ≤ a + 8 * (Umalloc.link hdr t bp a).size ∧
      ∀ c ∈ M, c ≠ a → c ∈ N ∧ (Umalloc.link hdr t bp c).size = (hdr c).size := by
  have hbN : bp ∉ N := fun hm => h.disj bp hm hbp
  have hbase := h.low bp hbp
  have hpos := h.pos bp (.inr hbp) hbase.ne'
  have hqb : (hdr t).ptr ≠ bp := fun e => hbN (e ▸ h.ring.next_mem t ht)
  rw [link_eq hdr htb.ne hqb fun e => by omega]
  -- the node is inserted
  have hb1 := h.ins hbp ht htb hmax
  have hg1 : Gap (Umalloc.ins hdr t bp) (insert bp N) {t, bp} := hg.ins
  have hibp : Umalloc.ins hdr t bp bp = ⟨(hdr t).ptr, (hdr bp).size⟩ := by
    rw [Umalloc.ins, update_of_ne htb.ne', update_self]
  -- and joined with the next one
  obtain ⟨M1, hM1, hbM1, hb2, hg2, hcase1⟩ := hb1.join hg1 (a := bp) (.inl rfl) (.inr hbase.ne') (by
    rw [hibp]
    rintro e (h1 | h1)
    · simp only at e h1
      omega
    · exact hqb h1)
  have htM1 : t ∈ M1 := by
    rcases hcase1 with ⟨rfl, -⟩ | ⟨e, rfl, -⟩
    · exact .inr ht
    rw [hibp] at e ⊢
    refine ⟨.inr ht, ?_⟩
    intro e'
    have e'' : t = (hdr t).ptr := e'
    simp only at e
    omega
  have hsize1 : (hdr bp).size ≤ (Umalloc.join (Umalloc.ins hdr t bp) bp bp).size := by
    rcases hcase1 with ⟨-, e⟩ | ⟨-, -, e⟩ <;> rw [e, hibp]
    exact Nat.le_add_right _ _
  have hnode1 : ∀ c ∈ M1, c ≠ bp → c ∈ N ∧ (Umalloc.join (Umalloc.ins hdr t bp) bp c).size = (hdr c).size := by
    intro c hc hne
    rw [join_of_ne hne, ins_size]
    exact ⟨(hM1 hc).resolve_left hne, rfl⟩
  have ht1 : Umalloc.join (Umalloc.ins hdr t bp) bp t = ⟨bp, (hdr t).size⟩ := by
    rw [join_of_ne htb.ne, Umalloc.ins, update_self]
  -- and with the previous one
  obtain ⟨M2, hM2, htM2, hb3, hg3, hcase2⟩ := hb2.join hg2 (a := t) htM1 (.inl (by rw [ht1]; exact htb)) (by
    rw [ht1]
    exact fun _ h1 => h1.2 rfl)
  have hg4 : Gap (Umalloc.join (Umalloc.join (Umalloc.ins hdr t bp) bp) t) M2 ∅ := by
    refine fun c hc _ => hg3 c hc ?_
    rintro ⟨⟨h1 | h1, hnb⟩, hnt⟩
    · exact hnt h1
    · exact hnb h1
  rcases hcase2 with ⟨rfl, e⟩ | ⟨htouch, rfl, hsz⟩
  · refine ⟨_, bp, hM2.trans hM1, htM2, hb3, hg4, hbM1, Nat.le_refl _, ?_, ?_⟩
    · simp only [e]
      omega
    · intro c hc hne
      simp only [e]
      exact hnode1 c hc hne
  rw [ht1] at htouch hsz
  simp only at htouch hsz
  refine ⟨_, t, hM2.trans hM1, htM2, hb3, hg4, htM2, htb.le, ?_, ?_⟩
  · simp only [hsz]
    omega
  intro c hc hne
  have hcb : c ≠ bp := fun e => hc.2 (by rw [ht1]; exact e)
  simp only [join_of_ne hne]
  exact hnode1 c hc.1 hcb

/-! ## `malloc` -/

section Take

variable {x n : Nat}

/-- A block large enough for a request is not the base. -/
theorem Blocks.ne_base (h : Blocks hdr base brk N A) (hn : 0 < n) (hsz : n ≤ (hdr x).size) : x ≠ base := by
  rintro rfl
  rw [h.base_size] at hsz
  omega

/-- The node after `p` is taken out. -/
theorem Blocks.takeAll (h : Blocks hdr base brk N A) (hg : Gap hdr N ∅) (hp : p ∈ N) (hx : (hdr p).ptr = x)
    (hxb : x ≠ base) :
    Blocks (update hdr p ⟨(hdr x).ptr, (hdr p).size⟩) base brk (N \ {x}) (insert x A) ∧
      Gap (update hdr p ⟨(hdr x).ptr, (hdr p).size⟩) (N \ {x}) ∅ := by
  have hxN : x ∈ N := hx ▸ h.ring.next_mem p hp
  obtain ⟨hpx, hring⟩ := h.ring.erase hp hx hxb
  have hbp := h.ring.low p hp
  have hsize : ∀ c, (update hdr p ⟨(hdr x).ptr, (hdr p).size⟩ c).size = (hdr c).size := by
    intro c
    by_cases e : c = p <;> simp [e]
  have hmem : ∀ c, c ∈ N \ {x} ∨ c ∈ insert x A → c ∈ N ∨ c ∈ A := by
    rintro c (hc | rfl | hc)
    exacts [.inl hc.1, .inl hxN, .inr hc]
  refine ⟨⟨hring.congr ?_, by rw [hsize]; exact h.base_size, ?_, ?_, ?_, ?_, ?_⟩, ?_⟩
  · intro c _
    by_cases e : c = p <;> simp [e]
  · rintro c (rfl | hc)
    · exact Nat.lt_of_le_of_lt hbp hpx
    · exact h.low c hc
  · rintro c hc (rfl | hcA)
    · exact hc.2 rfl
    · exact h.disj c hc.1 hcA
  · intro c hc
    rw [hsize]
    exact h.pos c (hmem c hc)
  · intro c hc
    rw [hsize]
    exact h.top c (hmem c hc)
  · intro c d hc hd hcd
    rw [hsize]
    exact h.apart c d (hmem c hc) (hmem d hd) hcd
  intro c hc _ hlt
  rw [hsize]
  by_cases e : c = p
  · subst e
    rw [update_self] at hlt ⊢
    simp only at hlt ⊢
    have h1 := h.apart c x (.inl hp) (.inl hxN) hpx
    have h2 : x < (hdr x).ptr := by
      by_contra hge
      have := (h.ring.wrap x hxN hge).1
      omega
    omega
  · rw [update_of_ne e] at hlt ⊢
    exact hg c hc.1 (Set.notMem_empty c) hlt

/-- The tail end of a node, `n` headers from `q` on, is cut off. -/
theorem Blocks.cut (h : Blocks hdr base brk N A) (hg : Gap hdr N ∅) (hx : x ∈ N) (hn : 0 < n) (hxq : x < q)
    (hqn : q + 8 * n = x + 8 * (hdr x).size) (r : Nat) :
    (∀ c, c ∈ N ∨ c ∈ A → c ≠ q) ∧
    Blocks (update (update hdr x ⟨(hdr x).ptr, (hdr x).size - n⟩) q ⟨r, n⟩) base brk N (insert q A) ∧
      Gap (update (update hdr x ⟨(hdr x).ptr, (hdr x).size - n⟩) q ⟨r, n⟩) N ∅ := by
  have hxb := h.ne_base hn (x := x) (by omega)
  have hqnot : ∀ c, c ∈ N ∨ c ∈ A → c ≠ q := by
    rintro c hc rfl
    have := h.apart x c (.inl hx) hc hxq
    omega
  generalize hhdr : update (update hdr x ⟨(hdr x).ptr, (hdr x).size - n⟩) q ⟨r, n⟩ = hdr'
  have hself : hdr' x = ⟨(hdr x).ptr, (hdr x).size - n⟩ := by
    rw [← hhdr, update_of_ne hxq.ne, update_self]
  have hnew : (hdr' q).size = n := by rw [← hhdr, update_self]
  have hother : ∀ c, c ≠ q → c ≠ x → hdr' c = hdr c := by
    intro c h1 h2
    rw [← hhdr, update_of_ne h1, update_of_ne h2]
  have hptr : ∀ c ∈ N, (hdr' c).ptr = (hdr c).ptr := by
    intro c hc
    by_cases e : c = x
    · rw [e, hself]
    · rw [hother c (hqnot c (.inl hc)) e]
  have hsize : ∀ c, c ∈ N ∨ c ∈ A → (hdr' c).size = if c = x then (hdr x).size - n else (hdr c).size := by
    intro c hc
    by_cases e : c = x
    · rw [if_pos e, e, hself]
    · rw [if_neg e, hother c (hqnot c hc) e]
  have hmem : ∀ c, c ∈ N ∨ c ∈ insert q A → c = q ∨ c ∈ N ∨ c ∈ A := by
    rintro c (hc | rfl | hc)
    exacts [.inr (.inl hc), .inl rfl, .inr (.inr hc)]
  refine ⟨hqnot, ⟨h.ring.congr fun c hc => hptr c hc, ?_, ?_, ?_, ?_, ?_, ?_⟩, ?_⟩
  · rw [hsize base (.inl h.ring.base_mem), if_neg hxb.symm]
    exact h.base_size
  · rintro c (rfl | hc)
    · exact Nat.lt_of_le_of_lt (h.ring.low x hx) hxq
    · exact h.low c hc
  · rintro c hc (rfl | hcA)
    · exact hqnot c (.inl hc) rfl
    · exact h.disj c hc hcA
  · intro c hc hcb
    rcases hmem c hc with rfl | hc
    · omega
    rw [hsize c hc]
    split
    · omega
    · exact h.pos c hc hcb
  · intro c hc
    have htop := h.top x (.inl hx)
    rcases hmem c hc with rfl | hc
    · omega
    rw [hsize c hc]
    split
    · omega
    · exact h.top c hc
  · intro c d hc hd hcd
    rcases hmem c hc with rfl | hc' <;> rcases hmem d hd with rfl | hd'
    · omega
    · have := h.apart x d (.inl hx) hd' (by omega)
      omega
    · rw [hsize c hc']
      split
      · omega
      by_cases hcx : c < x
      · have := h.apart c x hc' (.inl hx) hcx
        omega
      · have := h.apart x c (.inl hx) hc' (by omega)
        omega
    have := h.apart c d hc' hd' hcd
    rw [hsize c hc']
    split
    next e =>
      subst e
      omega
    · exact this
  intro c hc _ hlt
  rw [hptr c hc] at hlt ⊢
  rw [hsize c (.inl hc)]
  have := hg c hc (Set.notMem_empty c) hlt
  split
  next e =>
    subst e
    omega
  · exact this

end Take

/-- A new block above all others, as `morecore` makes one before it frees it. -/
theorem Blocks.grow {base brk u : Nat} (h : Blocks hdr base brk N A) (hg : Gap hdr N ∅)
    (hbase : base < brk) (hu : brk ≤ u) (r : Nat) {nu : Nat} (hnu : 0 < nu) :
    u ∉ A ∧ Blocks (update hdr u ⟨r, nu⟩) base (u + 8 * nu) N (insert u A) ∧
      Gap (update hdr u ⟨r, nu⟩) N ∅ := by
  have hbelow : ∀ c, c ∈ N ∨ c ∈ A → c < u := by
    intro c hc
    by_cases e : c = base
    · omega
    · have := h.pos c hc e
      have := h.top c hc
      omega
  have hother : ∀ c, c ∈ N ∨ c ∈ A → update hdr u ⟨r, nu⟩ c = hdr c := fun c hc =>
    update_of_ne (hbelow c hc).ne _ _
  have hmem : ∀ c, c ∈ N ∨ c ∈ insert u A → c = u ∨ c ∈ N ∨ c ∈ A := by
    rintro c (hc | rfl | hc)
    exacts [.inr (.inl hc), .inl rfl, .inr (.inr hc)]
  refine ⟨fun hA => (hbelow _ (.inr hA)).ne rfl, ⟨(h.ring.grow (hu.trans (Nat.le_add_right _ _))).congr ?_, ?_, ?_, ?_,
    ?_, ?_, ?_⟩, ?_⟩
  · intro c hc
    simp only [hother c (.inl hc)]
  · simp only [hother _ (.inl h.ring.base_mem)]
    exact h.base_size
  · rintro c (rfl | hc)
    · omega
    · exact h.low c hc
  · rintro c hc (rfl | hA)
    · exact (hbelow _ (.inl hc)).ne rfl
    · exact h.disj c hc hA
  · intro c hc hcb
    rcases hmem c hc with rfl | hc'
    · simpa using hnu
    · simp only [hother c hc']
      exact h.pos c hc' hcb
  · intro c hc
    rcases hmem c hc with rfl | hc'
    · simp
    · simp only [hother c hc']
      have := h.top c hc'
      omega
  · intro c d hc hd hcd
    rcases hmem c hc with rfl | hc'
    · rcases hmem d hd with rfl | hd'
      · omega
      · have := hbelow d hd'
        omega
    simp only [hother c hc']
    rcases hmem d hd with rfl | hd'
    · exact (h.top c hc').trans hu
    · exact h.apart c d hc' hd' hcd
  · intro c hc hX hup
    simp only [hother c (.inl hc)] at hup ⊢
    exact hg c hc hX hup

/-- What is not a header of a block is the program's own data. -/
theorem Blocks.store {hdr hdr' : Nat → Header} {base brk : Nat} (h : Blocks hdr base brk N A) (hg : Gap hdr N ∅)
    (hother : ∀ c, c ∈ N ∨ c ∈ A → hdr' c = hdr c) : Blocks hdr' base brk N A ∧ Gap hdr' N ∅ := by
  refine ⟨⟨h.ring.congr ?_, ?_, h.low, h.disj, ?_, ?_, ?_⟩, ?_⟩
  · intro c hc
    simp only [hother c (.inl hc)]
  · simp only [hother _ (.inl h.ring.base_mem)]
    exact h.base_size
  · intro c hc
    simp only [hother c hc]
    exact h.pos c hc
  · intro c hc
    simp only [hother c hc]
    exact h.top c hc
  · intro c d hc hd hcd
    simp only [hother c hc]
    exact h.apart c d hc hd hcd
  · intro c hc hX hup
    simp only [hother c (.inl hc)] at hup ⊢
    exact hg c hc hX hup

/-! ## The bytes of the blocks -/

section Covers

variable {S : Set Nat} {y : Nat}

/-- `y` is in one of the blocks of `S`. -/
def Covers (hdr : Nat → Header) (S : Set Nat) (y : Nat) : Prop := ∃ a ∈ S, a ≤ y ∧ y < blockEnd hdr a

/-- A block that takes over the one behind it covers nothing new. -/
theorem covers_merge {c q : Nat} {x : Header} (hq : q ∈ S) (h : Covers (update hdr c x) S y)
    (hx : x.size = (hdr c).size ∨ blockEnd hdr c = q ∧ x.size = (hdr c).size + (hdr q).size) : Covers hdr S y := by
  obtain ⟨a, ha, hay, hya⟩ := h
  unfold blockEnd at hya hx
  by_cases e : a = c
  · subst e
    rw [update_self] at hya
    by_cases hy : y < blockEnd hdr a
    · exact ⟨a, ha, hay, hy⟩
    unfold blockEnd at hy
    refine ⟨q, hq, by omega, ?_⟩
    unfold blockEnd
    omega
  · rw [update_of_ne e] at hya
    exact ⟨a, ha, hay, hya⟩

theorem covers_linkNext (hq : (hdr p).ptr ∈ S) (h : Covers (linkNext hdr p bp) S y) : Covers hdr S y := by
  unfold linkNext at h
  split at h
  next htouch => exact covers_merge hq h (.inr ⟨htouch, rfl⟩)
  · exact covers_merge hq h (.inl rfl)

theorem covers_linkPrev (hbp : bp ∈ S) (h : Covers (linkPrev hdr p bp) S y) : Covers hdr S y := by
  unfold linkPrev at h
  split at h
  next htouch => exact covers_merge hbp h (.inr ⟨htouch, rfl⟩)
  · exact covers_merge hbp h (.inl rfl)

theorem link_of_ne (hp : a ≠ p) (hb : a ≠ bp) : link hdr p bp a = hdr a := by
  unfold link linkPrev linkNext
  split <;> split <;> rw [update_of_ne hp, update_of_ne hb]

end Covers

end Xv6.Umalloc
