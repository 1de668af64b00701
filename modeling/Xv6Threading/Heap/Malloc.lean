import Xv6Threading.Heap.Blocks

/-!
# `malloc` finds the first block that is large enough (`umalloc.c:24-90`)

The search starts after `freep` and goes round once; only if nothing fits does it ask for more memory, and
then what it gets fits. In both cases the block it returns is the tail end of a free block, so that its
address is known from where that block ends. All that is needed of `sbrk` is that a positive amount is
refused or added above all memory so far (`Grows`).
-/

namespace Xv6.Umalloc

open Function
open Vm (addSz KERNBASE)

variable {H H' : Heap} {N A : Set Nat} {f n p u x bp : Nat} {hdr : Nat → Header} {sbrk : Sbrk} {m : Memory}

/-- The heap, once the first request has been made: `N` are the nodes of the free list and `A` the headers of the
blocks of the program. -/
structure WF (H : Heap) (N A : Set Nat) : Prop where
  blocks : Blocks H.hdr H.base H.mem.brk N A
  gap : Gap H.hdr N ∅
  freep : ∃ f ∈ N, H.freep = some f
  base_le : H.base + 8 ≤ H.mem.brk
  brk_lt : H.mem.brk < 2 ^ 32
  owned : ∀ y, Covers H.hdr (N ∪ A) y → H.mem.Owns y

theorem WF.dist_lt (h : WF H N A) (hf : f ∈ N) : CircList.dist H.base H.mem.brk f p < 2 ^ 33 := by
  have := h.brk_lt
  have := h.blocks.ring.high f hf
  unfold CircList.dist
  split <;> omega

/-- `free` of a block of the program. -/
theorem free_spec (h : WF H N A) (hbp : bp ∈ A) :
    ∃ H' M a, H.free (bp + 8) = some H' ∧ WF H' M (A \ {bp}) ∧ H'.mem = H.mem ∧
      (∀ c ∈ A, c ≠ bp → H'.hdr c = H.hdr c) ∧ a ∈ M ∧ a ≤ bp ∧ bp + 8 * (H.hdr bp).size ≤ a + 8 * (H'.hdr a).size ∧
      ∀ c ∈ M, c ≠ a → c ∈ N ∧ (H'.hdr c).size = (H.hdr c).size := by
  obtain ⟨f, hf, hfreep⟩ := h.freep
  have hb := h.blocks
  have hbase := hb.low bp hbp
  obtain ⟨t, ht, htb, hmax⟩ := exists_below hb.ring hbase fun hm => hb.disj bp hm hbp
  have hplace : place H.hdr bp fuel f = some t :=
    place_spec hb.ring hbase ht htb hmax fuel hf ((h.dist_lt ht).trans (by decide))
  have hfree : H.free (bp + 8) = some { H with hdr := link H.hdr t bp, freep := some t } := by
    simp only [Heap.free, hfreep, Option.bind_some, Nat.add_sub_cancel, hplace, Option.map_some]
  obtain ⟨M, a, hM, htM, hb', hg', ha, hab, hcov, hnodes⟩ := hb.link h.gap hbp ht htb hmax
  have hsub : ∀ c ∈ M ∪ A \ {bp}, c ∈ N ∪ A := by
    rintro c (hc | hc)
    · obtain rfl | hc := hM hc
      · exact .inr hbp
      · exact .inl hc
    · exact .inr hc.1
  refine ⟨_, M, a, hfree, ⟨hb', hg', ⟨t, htM, rfl⟩, h.base_le, h.brk_lt, ?_⟩, rfl, ?_, ha, hab, hcov, hnodes⟩
  · rintro y ⟨c, hc, hy⟩
    exact h.owned y (covers_linkNext (.inl (hb.ring.next_mem t ht)) (covers_linkPrev (.inr hbp) ⟨c, hsub c hc, hy⟩))
  · intro c hc hne
    exact link_of_ne (fun e => hb.disj t ht (e ▸ hc)) hne

/-- The program writes into one of its blocks. -/
theorem WF.store (h : WF H N A) {a : Nat} (ha : a ∈ A) (hau : a < u) (hu : u < blockEnd H.hdr a) (v : Header) :
    WF { H with hdr := update H.hdr u v } N A ∧ ∀ c ∈ A, update H.hdr u v c = H.hdr c := by
  -- no header lies inside a block
  have hother : ∀ c, c ∈ N ∨ c ∈ A → update H.hdr u v c = H.hdr c := by
    intro c hc
    refine update_of_ne ?_ _ _
    rintro rfl
    exact absurd (h.blocks.apart a c (.inr ha) hc hau) (Nat.not_le.2 hu)
  obtain ⟨hb, hg⟩ := h.blocks.store h.gap hother
  refine ⟨⟨hb, hg, h.freep, h.base_le, h.brk_lt, ?_⟩, fun c hc => hother c (.inr hc)⟩
  rintro y ⟨c, hc, hcy, hyc⟩
  simp only [blockEnd, hother c hc] at hyc
  exact h.owned y ⟨c, hc, hcy, hyc⟩

/-! ## Taking a block -/

/-- A block of `n` headers at `u` has been taken. -/
structure Took (H H' : Heap) (A : Set Nat) (n u : Nat) : Prop where
  wf : ∃ M, WF H' M (insert u A)
  new : u ∉ A
  size : (H'.hdr u).size = n
  frame : ∀ c ∈ A, H'.hdr c = H.hdr c

/-- It ends where the free one ended. -/
theorem take_spec (h : WF H N A) (hp : p ∈ N) (hx : (H.hdr p).ptr = x) (hn : 0 < n) (hsz : n ≤ (H.hdr x).size) :
    ∃ u, H.take p x n = ((H.take p x n).1, u + 8) ∧ Took H (H.take p x n).1 A n u ∧ (H.take p x n).1.mem = H.mem ∧
      blockEnd (H.take p x n).1.hdr u = blockEnd H.hdr x := by
  have hb := h.blocks
  have hxN : x ∈ N := hx ▸ hb.ring.next_mem p hp
  have hxb : x ≠ H.base := hb.ne_base hn hsz
  by_cases heq : (H.hdr x).size = n
  · have htake : H.take p x n =
        ({ H with hdr := update H.hdr p ⟨(H.hdr x).ptr, (H.hdr p).size⟩, freep := some p }, x + 8) := by
      rw [Heap.take, if_pos heq]
    obtain ⟨hb', hg'⟩ := hb.takeAll h.gap hp hx hxb
    have hpx : p < x := (hb.ring.erase hp hx hxb).1
    have hsize : ∀ c, (update H.hdr p ⟨(H.hdr x).ptr, (H.hdr p).size⟩ c).size = (H.hdr c).size := by
      intro c
      by_cases e : c = p <;> simp [e]
    rw [htake]
    refine ⟨x, rfl, ⟨⟨N \ {x}, hb', hg', ⟨p, ⟨hp, hpx.ne⟩, rfl⟩, h.base_le, h.brk_lt, ?_⟩, hb.disj x hxN, ?_, ?_⟩, rfl, ?_⟩
    · rintro y ⟨c, hc, hy⟩
      refine h.owned y ⟨c, ?_, hy.1, ?_⟩
      · obtain hc | rfl | hc := hc
        exacts [.inl hc.1, .inl hxN, .inr hc]
      · have hlt := hy.2
        unfold blockEnd at hlt
        rwa [hsize c] at hlt
    · rw [hsize x, heq]
    · intro c hc
      refine update_of_ne ?_ _ _
      rintro rfl
      exact hb.disj c hp hc
    · simp only [blockEnd, hsize x]
  have hx1 : update H.hdr x ⟨(H.hdr x).ptr, (H.hdr x).size - n⟩ x = ⟨(H.hdr x).ptr, (H.hdr x).size - n⟩ :=
    update_self ..
  obtain ⟨q, hq⟩ : ∃ q, q = x + 8 * ((H.hdr x).size - n) := ⟨_, rfl⟩
  have hxq : x < q := by omega
  have htake : H.take p x n = ({ H with
      hdr := update (update H.hdr x ⟨(H.hdr x).ptr, (H.hdr x).size - n⟩) q ⟨(H.hdr q).ptr, n⟩
      freep := some p }, q + 8) := by
    simp only [Heap.take, if_neg heq, blockEnd, hx1, ← hq, update_of_ne hxq.ne']
  obtain ⟨hqnot, hb', hg'⟩ := hb.cut h.gap hxN hn hxq (by omega) (H.hdr q).ptr
  rw [htake]
  refine ⟨q, rfl, ⟨⟨N, hb', hg', ⟨p, hp, rfl⟩, h.base_le, h.brk_lt, ?_⟩, fun hA => hqnot q (.inr hA) rfl, ?_, ?_⟩, rfl, ?_⟩
  · rintro y ⟨c, hc, hcy, hyc⟩
    simp only [blockEnd] at hyc
    by_cases ecq : c = q
    · refine h.owned y ⟨x, .inl hxN, by omega, ?_⟩
      simp only [ecq, update_self] at hyc
      unfold blockEnd
      omega
    rw [update_of_ne ecq] at hyc
    have hc' : c ∈ N ∪ A := by
      obtain hc | rfl | hc := hc
      exacts [.inl hc, absurd rfl ecq, .inr hc]
    by_cases ecx : c = x
    · refine h.owned y ⟨c, hc', hcy, ?_⟩
      simp only [ecx, update_self] at hyc
      rw [ecx]
      unfold blockEnd
      omega
    · rw [update_of_ne ecx] at hyc
      exact h.owned y ⟨c, hc', hcy, hyc⟩
  · simp
  · intro c hc
    have hcx : c ≠ x := fun e => hb.disj x hxN (e ▸ hc)
    show update (update H.hdr x _) q _ c = H.hdr c
    rw [update_of_ne (hqnot c (.inr hc)), update_of_ne hcx]
  · simp only [blockEnd, update_self]
    omega

/-! ## The search -/

/-- The first block of at least `n` headers, from `p` on and up to `f`. -/
def scan (hdr : Nat → Header) (f n : Nat) : Nat → Nat → Option Nat
  | 0, _ => none
  | k + 1, p => if (hdr p).size ≥ n then some p else if p = f then none else scan hdr f n k (hdr p).ptr

def Heap.firstFit (H : Heap) (n : Nat) : Option Nat :=
  H.freep.bind fun f => scan H.hdr f n fuel (H.hdr f).ptr

theorem firstFit_of_some (h : H.freep = some f) : H.firstFit n = scan H.hdr f n fuel (H.hdr f).ptr := by
  rw [Heap.firstFit, h, Option.bind_some]

/-- `malloc` after a search without success. -/
def more (sbrk : Sbrk) (n k : Nat) (H : Heap) : Heap × Option (Option Nat) :=
  match H.morecore sbrk n with
  | (H, some (some p)) => Heap.mallocLoop sbrk n k H p (H.hdr p).ptr
  | (H, r) => (H, r)

/-- One search: it finds a block, or there is none. -/
theorem mallocLoop_search (h : WF H N A) (hf : f ∈ N) (hfp : H.freep = some f) (sbrk : Sbrk) (n k : Nat) {pp p : Nat}
    (hpp : pp ∈ N) (hptr : (H.hdr pp).ptr = p) (hlt : CircList.dist H.base H.mem.brk f p < k) :
      (∃ pp' x, pp' ∈ N ∧ (H.hdr pp').ptr = x ∧ n ≤ (H.hdr x).size ∧ scan H.hdr f n k p = some x ∧
        Heap.mallocLoop sbrk n k H pp p = ((H.take pp' x n).1, some (some (H.take pp' x n).2))) ∨
      (scan H.hdr f n k p = none ∧
        (∀ c ∈ N, CircList.dist H.base H.mem.brk f c ≤ CircList.dist H.base H.mem.brk f p → (H.hdr c).size < n) ∧
        ∃ k', k ≤ k' + CircList.dist H.base H.mem.brk f p + 1 ∧ Heap.mallocLoop sbrk n k H pp p = more sbrk n k' H) := by
  have hsearch := h.blocks.ring.search hf (fun x => n ≤ (H.hdr x).size)
    (fun k pp p => (scan H.hdr f n k p, Heap.mallocLoop sbrk n k H pp p))
    (fun pp x => (some x, (H.take pp x n).1, some (some (H.take pp x n).2))) (fun k => (none, more sbrk n k H))
    (fun k pp p hsz => ?_) (fun k pp hsz => ?_) (fun k pp p hsz hne => ?_) k hpp hptr hlt
  · rcases hsearch with ⟨pp', x, hpp', hx, hsz, hres⟩ | ⟨hall, k', hk', hres⟩
    · exact .inl ⟨pp', x, hpp', hx, hsz, congrArg Prod.fst hres, congrArg Prod.snd hres⟩
    · exact .inr ⟨congrArg Prod.fst hres, fun c hc hd => Nat.lt_of_not_le (hall c hc hd), k', hk',
        congrArg Prod.snd hres⟩
  · rw [scan, if_pos hsz, Heap.mallocLoop, if_pos hsz]
  · rw [scan, if_neg hsz, if_pos rfl, Heap.mallocLoop, if_neg hsz, if_pos hfp]
    rfl
  · have hne' : H.freep ≠ some p := fun e' => hne (Option.some.inj (e'.symm.trans hfp))
    rw [scan, if_neg hsz, if_neg hne, Heap.mallocLoop, if_neg hsz, if_neg hne']

/-! ## More memory -/

/-- `sbrk` of `n` bytes gives nothing, or adds them above all others. -/
def Grows (sbrk : Sbrk) (m : Memory) (n : Nat) : Prop :=
  sbrk m n = (m.refuse n, none) ∨ ∃ p, m.brk ≤ p ∧ p + n < 2 ^ 32 ∧ sbrk m n = (m.add p n, some p)

theorem grows_fresh (gap : Option Nat) (m : Memory) (n : Nat) : Grows (fresh gap) m n := by
  unfold Grows fresh
  cases gap with
  | none => exact .inl rfl
  | some g =>
    simp only [Int.toNat_natCast]
    split
    case isTrue hlt => exact .inr ⟨m.brk + g, Nat.le_add_right _ _, hlt, rfl⟩
    case isFalse => exact .inl rfl

theorem resize_pos {sz m sz' : Nat} {b : Bool} (hm : 0 < m) (hlt : m < 2 ^ 31) (hsz : sz < KERNBASE)
    (h : resize sz m b = some sz') : sz' = sz + m ∧ sz' < KERNBASE := by
  have hk : KERNBASE = 2 ^ 31 := rfl
  have hadd : addSz sz m = sz + m := by
    unfold addSz
    omega
  rw [resize, if_pos (by omega), hadd] at h
  split at h
  · cases h
  rw [if_neg (by omega)] at h
  split at h
  · cases h
    omega
  · cases h

/-- The kernel's `sbrk` of a positive `int`. -/
theorem sysSbrk_pos (ok : Nat → Bool) (hn : 0 < n) (hlt : n < 2 ^ 31) (hm : m.brk < KERNBASE) :
    (resize m.brk n (ok m.asked.length) = none ∧ sysSbrk ok m n = (m.refuse n, none)) ∨
      (resize m.brk n (ok m.asked.length) ≠ none ∧ m.brk + n < KERNBASE ∧
        sysSbrk ok m n = (m.add m.brk n, some m.brk)) := by
  unfold sysSbrk
  cases hr : resize m.brk n (ok m.asked.length) with
  | none => exact .inl ⟨rfl, rfl⟩
  | some sz =>
    obtain ⟨rfl, hsz⟩ := resize_pos hn hlt hm hr
    refine .inr ⟨Option.some_ne_none _, hsz, ?_⟩
    simp only [if_pos (Nat.le_add_right m.brk n)]
    rfl

theorem grows_sysSbrk (ok : Nat → Bool) (hn : 0 < n) (hlt : n < 2 ^ 31) (hm : m.brk < KERNBASE) :
    Grows (sysSbrk ok) m n := by
  have hk : KERNBASE = 2 ^ 31 := rfl
  rcases sysSbrk_pos ok hn hlt hm with ⟨-, h⟩ | ⟨-, hsz, h⟩
  · exact .inl h
  · exact .inr ⟨m.brk, Nat.le_refl _, by omega, h⟩

/-- The bytes that `morecore` asks for. -/
def amount (n : Nat) : Nat := 8 * if n < 4096 then 4096 else n

theorem amount_pos (n : Nat) : 0 < amount n := by
  unfold amount
  split <;> omega

theorem toInt_amount (hn : amount n < 2 ^ 31) : (BitVec.ofNat 32 (amount n)).toInt = amount n := by
  rw [BitVec.toInt_ofNat']
  exact Int.bmod_eq_of_le (by omega) (by omega)

theorem WF.refuse (h : WF H N A) (n : Int) : WF { H with mem := H.mem.refuse n } N A :=
  ⟨h.blocks, h.gap, h.freep, h.base_le, h.brk_lt, h.owned⟩

/-- The new block, before it is freed. -/
theorem WF.grow (h : WF H N A) {nu : Nat} (hnu : 0 < nu) (hp : H.mem.brk ≤ p) (hlt : p + 8 * nu < 2 ^ 32) :
    p ∉ A ∧ (∀ c, c ∈ N ∨ c ∈ A → update H.hdr p ⟨(H.hdr p).ptr, nu⟩ c = H.hdr c) ∧
      WF { H with mem := H.mem.add p (8 * nu), hdr := update H.hdr p ⟨(H.hdr p).ptr, nu⟩ } N (insert p A) := by
  have hle := h.base_le
  obtain ⟨hnew, hb, hg⟩ := h.blocks.grow h.gap (by omega) hp (H.hdr p).ptr hnu
  have hold : ∀ c, c ∈ N ∨ c ∈ A → update H.hdr p ⟨(H.hdr p).ptr, nu⟩ c = H.hdr c := by
    intro c hc
    refine update_of_ne ?_ _ _
    rintro rfl
    obtain hc | hc := hc
    · exact hb.disj _ hc (.inl rfl)
    · exact hnew hc
  refine ⟨hnew, hold, hb, hg, h.freep, ?_, hlt, ?_⟩
  · show H.base + 8 ≤ p + 8 * nu
    omega
  rintro y ⟨c, hc, hcy, hyc⟩
  by_cases e : c = p
  · refine ⟨_, List.mem_cons_self, by simp only; omega, ?_⟩
    rw [e] at hyc
    simpa [blockEnd] using hyc
  have hc' : c ∈ N ∨ c ∈ A := by
    obtain hc | hc | hc := hc
    exacts [.inl hc, absurd hc e, .inr hc]
  simp only [blockEnd, hold c hc'] at hyc
  obtain ⟨r, hr, hry⟩ := h.owned y ⟨c, hc', hcy, hyc⟩
  exact ⟨r, List.mem_cons_of_mem _ hr, hry⟩

/-- `morecore` gets nothing, or makes a free block that is large enough and ends at the new break. -/
theorem morecore_spec (h : WF H N A) (hn : amount n < 2 ^ 31) (hg : Grows sbrk H.mem (amount n)) :
    ((sbrk H.mem (amount n)).2 = none ∧
      H.morecore sbrk n = ({ H with mem := H.mem.refuse (amount n) }, some none)) ∨
    ((sbrk H.mem (amount n)).2 ≠ none ∧ ∃ H' M f a, H.morecore sbrk n = (H', some (some f)) ∧ WF H' M A ∧
      H'.mem = (sbrk H.mem (amount n)).1 ∧ f ∈ M ∧ H'.freep = some f ∧ a ∈ M ∧ n ≤ (H'.hdr a).size ∧
      blockEnd H'.hdr a = H'.mem.brk ∧ (∀ c ∈ M, c ≠ a → c ∈ N ∧ (H'.hdr c).size = (H.hdr c).size) ∧
      ∀ c ∈ A, H'.hdr c = H.hdr c) := by
  obtain ⟨nu, hnu⟩ : ∃ nu, nu = if n < 4096 then 4096 else n := ⟨_, rfl⟩
  have hamount : amount n = 8 * nu := by rw [amount, hnu]
  have hpos : 0 < nu ∧ n ≤ nu := by
    rw [hnu]
    split <;> omega
  have hint := toInt_amount hn
  unfold Heap.morecore
  simp only [← hnu]
  rw [hamount] at hint hg ⊢
  rw [hint]
  obtain hs | ⟨p, hp, hlt, hs⟩ := hg
  · left
    rw [hs]
    exact ⟨rfl, rfl⟩
  right
  have hmapped : (H.mem.add p (8 * nu)).mapped p = true := by
    show decide (p + 8 ≤ (p + 8 * nu + 4095) / 4096 * 4096) = true
    exact decide_eq_true (by omega)
  obtain ⟨hnew, hold, hwf⟩ := h.grow hpos.1 hp hlt
  obtain ⟨H', M, a, hfree, hwf', hmem, hframe, ha, hap, hcov, hnodes⟩ := free_spec hwf (.inl rfl)
  rw [Set.insert_sdiff_self_of_notMem hnew] at hwf'
  obtain ⟨f, hf, hfp⟩ := hwf'.freep
  have htop := hwf'.blocks.top a (.inl ha)
  have hbrk : H'.mem.brk = p + 8 * nu := by rw [hmem]; rfl
  simp only [update_self] at hcov
  simp only [hs, hmapped, if_true, hfree, hfp]
  refine ⟨Option.some_ne_none p, H', M, f, a, rfl, hwf', hmem, hf, hfp, ha, by omega, ?_, ?_, ?_⟩
  · unfold blockEnd
    omega
  · intro c hc hne
    obtain ⟨hcN, hsz⟩ := hnodes c hc hne
    simp only [hold c (.inl hcN)] at hsz
    exact ⟨hcN, hsz⟩
  · intro c hc
    rw [hframe c (.inr hc) fun e => hnew (e ▸ hc)]
    exact hold c (.inr hc)

/-! ## `malloc` -/

/-- `malloc` of `n` headers finds the first block that fits, or there is none: then it returns null if `sbrk` fails, and
otherwise a block at the new break. -/
theorem mallocLoop_spec (h : WF H N A) (hf : f ∈ N) (hfp : H.freep = some f) (hn : 0 < n) (hamount : amount n < 2 ^ 31)
    (hg : Grows sbrk H.mem (amount n)) :
    (∃ H' u x, H.firstFit n = some x ∧ x ∈ N ∧ n ≤ (H.hdr x).size ∧
      Heap.mallocLoop sbrk n fuel H f (H.hdr f).ptr = (H', some (some (u + 8))) ∧ Took H H' A n u ∧ H'.mem = H.mem ∧
      blockEnd H'.hdr u = blockEnd H.hdr x) ∨
    (H.firstFit n = none ∧ (∀ c ∈ N, (H.hdr c).size < n) ∧
      ((sbrk H.mem (amount n)).2 = none ∧
        Heap.mallocLoop sbrk n fuel H f (H.hdr f).ptr = ({ H with mem := H.mem.refuse (amount n) }, some none) ∨
      (sbrk H.mem (amount n)).2 ≠ none ∧ ∃ H' u,
        Heap.mallocLoop sbrk n fuel H f (H.hdr f).ptr = (H', some (some (u + 8))) ∧ Took H H' A n u ∧
        H'.mem = (sbrk H.mem (amount n)).1 ∧ blockEnd H'.hdr u = H'.mem.brk)) := by
  have hd := h.dist_lt (p := (H.hdr f).ptr) hf
  have hfuel : fuel = 2 ^ 36 := rfl
  have hring := h.blocks.ring
  rw [firstFit_of_some hfp]
  rcases mallocLoop_search h hf hfp sbrk n fuel hf rfl (hd.trans (by decide)) with
    ⟨pp, x, hpp, hx, hsz, hs, hm⟩ | ⟨hs, hall, k, hk, hm⟩
  · obtain ⟨u, htake, htook, hmem, hend⟩ := take_spec h hpp hx hn hsz
    exact .inl ⟨_, u, x, hs, hx ▸ hring.next_mem pp hpp, hsz, by rw [hm, htake], htook, hmem, hend⟩
  -- nothing fits: `morecore` and a second search
  have hsmall : ∀ c ∈ N, (H.hdr c).size < n := fun c hc => hall c hc (hring.dist_le_next hf hc)
  refine .inr ⟨hs, hsmall, ?_⟩
  rw [hm, more]
  rcases morecore_spec h hamount hg with
    ⟨hnone, hc⟩ | ⟨hsome, H', M, f', a, hc, hwf, hmem, hf', hfp', ha, hsz, hea, hnodes, hframe⟩
  · rw [hc]
    exact .inl ⟨hnone, rfl⟩
  rw [hc]
  refine .inr ⟨hsome, ?_⟩
  have hd' := hwf.dist_lt (p := (H'.hdr f').ptr) hf'
  have hring' := hwf.blocks.ring
  rcases mallocLoop_search hwf hf' hfp' sbrk n k hf' rfl (by omega) with ⟨pp, x, hpp, hx, hxsz, -, hm'⟩ | ⟨-, hall', -⟩
  · -- the block that is found is the new one
    have hxa : x = a := by
      by_contra hne
      obtain ⟨hxN, hxeq⟩ := hnodes x (hx ▸ hring'.next_mem pp hpp) hne
      have := hsmall x hxN
      omega
    subst hxa
    obtain ⟨u, htake, htook, hmem', hend⟩ := take_spec hwf hpp hx hn hxsz
    refine ⟨_, u, ?_, ⟨htook.wf, htook.new, htook.size, fun c hc => (htook.frame c hc).trans (hframe c hc)⟩,
      hmem'.trans hmem, ?_⟩
    · show Heap.mallocLoop sbrk n k H' f' (H'.hdr f').ptr = _
      rw [hm', htake]
    · rw [hend, hea, hmem']
  · have := hall' a ha (hring'.dist_le_next hf' ha)
    omega

/-! ## Whole requests -/

/-- Before the first request nothing is allocated; after it the free list is there. -/
def Ready (H : Heap) (A : Set Nat) : Prop :=
  H.freep = none ∧ H.base + 8 ≤ H.mem.brk ∧ H.mem.brk < 2 ^ 32 ∧ A = ∅ ∨ ∃ N, WF H N A

/-- The list with the base alone. -/
theorem start_spec (hf : H.freep = none) (hb : H.base + 8 ≤ H.mem.brk) (hlt : H.mem.brk < 2 ^ 32) :
    WF H.start {H.base} ∅ ∧ H.start.freep = some H.base ∧ H.start.mem = H.mem ∧
      ∀ n, 0 < n → H.start.firstFit n = none := by
  have hst : H.start = { H with hdr := update H.hdr H.base ⟨H.base, 0⟩, freep := some H.base } := by
    rw [Heap.start, hf]
  rw [hst]
  have hptr : (update H.hdr H.base ⟨H.base, 0⟩ H.base).ptr = H.base := by simp
  have hle : H.base ≤ H.mem.brk := by omega
  obtain ⟨hblocks, hgap⟩ := Blocks.single hptr (by simp) hle
  refine ⟨⟨hblocks, hgap, ⟨H.base, rfl, rfl⟩, hb, hlt, ?_⟩, rfl, rfl, fun n hn => ?_⟩
  · rintro y ⟨c, hc | hc, hy⟩
    · have hc : c = H.base := hc
      simp [hc, blockEnd] at hy
      omega
    · exact absurd hc (Set.notMem_empty c)
  · rw [firstFit_of_some rfl]
    simp only [update_self]
    show scan _ _ _ (fuel - 1 + 1) _ = none
    rw [scan, if_neg (by simp only [update_self]; omega), if_pos rfl]

theorem Ready.start (h : Ready H A) : ∃ N f, WF H.start N A ∧ f ∈ N ∧ H.start.freep = some f ∧ H.start.mem = H.mem ∧
    (∀ c ∈ A, H.start.hdr c = H.hdr c) ∧ ∀ n, 0 < n → H.start.firstFit n = H.firstFit n ∧
      ∀ x ∈ H.firstFit n, blockEnd H.start.hdr x = blockEnd H.hdr x := by
  rcases h with ⟨hnone, hb, hlt, rfl⟩ | ⟨N, hwf⟩
  · obtain ⟨hwf, hfp, hmem, hfit⟩ := start_spec hnone hb hlt
    refine ⟨_, _, hwf, rfl, hfp, hmem, fun c hc => absurd hc (Set.notMem_empty c), fun n hn => ?_⟩
    rw [hfit n hn, Heap.firstFit, hnone, Option.bind_none]
    exact ⟨rfl, fun x hx => by cases hx⟩
  obtain ⟨f, hf, hfp⟩ := hwf.freep
  have hst : H.start = H := by rw [Heap.start, hfp]
  rw [hst]
  exact ⟨N, f, hwf, hf, hfp, rfl, fun _ _ => rfl, fun _ _ => ⟨rfl, fun _ _ => rfl⟩⟩

theorem malloc_eq {nbytes : BitVec 32} (hfp : H.start.freep = some f) : H.malloc sbrk nbytes =
    Heap.mallocLoop sbrk (Heap.nunits nbytes) fuel H.start f (H.start.hdr f).ptr := by
  unfold Heap.malloc
  simp only [hfp]

theorem amount_lt (hint : 8 * n < 2 ^ 31) : amount n < 2 ^ 31 := by
  unfold amount
  split <;> omega

/-- `malloc` returns null, or a new block; that is cut from the end of the first one that fits, or of the new memory. -/
theorem malloc_spec {nbytes : BitVec 32} (h : Ready H A) (hint : 8 * Heap.nunits nbytes < 2 ^ 31)
    (hg : Grows sbrk H.mem (amount (Heap.nunits nbytes))) :
    (∃ H', H.malloc sbrk nbytes = (H', some none) ∧ Ready H' A ∧
      H'.mem = H.mem.refuse (amount (Heap.nunits nbytes)) ∧ ∀ c ∈ A, H'.hdr c = H.hdr c) ∨
    ∃ H' u, H.malloc sbrk nbytes = (H', some (some (u + 8))) ∧ Took H H' A (Heap.nunits nbytes) u ∧
      ((∃ x, H.firstFit (Heap.nunits nbytes) = some x ∧ H'.mem = H.mem ∧ blockEnd H'.hdr u = blockEnd H.hdr x) ∨
        H.firstFit (Heap.nunits nbytes) = none ∧ (sbrk H.mem (amount (Heap.nunits nbytes))).2 ≠ none ∧
          H'.mem = (sbrk H.mem (amount (Heap.nunits nbytes))).1 ∧ blockEnd H'.hdr u = H'.mem.brk) := by
  have hn : 0 < Heap.nunits nbytes := Nat.succ_pos _
  obtain ⟨N, f, hwf, hf, hfp, hmem, hhdr, hfit⟩ := h.start
  obtain ⟨hfit, hend⟩ := hfit _ hn
  rw [malloc_eq hfp]
  rw [← hmem] at hg
  have htook : ∀ {H' u}, Took H.start H' A (Heap.nunits nbytes) u → Took H H' A (Heap.nunits nbytes) u := fun ht =>
    ⟨ht.wf, ht.new, ht.size, fun c hc => (ht.frame c hc).trans (hhdr c hc)⟩
  rcases mallocLoop_spec hwf hf hfp hn (amount_lt hint) hg with
    ⟨H', u, x, hx, -, -, hm, ht, hmem', hue⟩ | ⟨hnone, -, ⟨-, hm⟩ | ⟨hsome, H', u, hm, ht, hmem', hue⟩⟩
  · rw [hfit] at hx
    exact .inr ⟨H', u, hm, htook ht, .inl ⟨x, hx, hmem'.trans hmem, hue.trans (hend x hx)⟩⟩
  · exact .inl ⟨_, hm, .inr ⟨N, hwf.refuse _⟩, by rw [hmem], hhdr⟩
  · rw [hmem] at hsome hmem'
    exact .inr ⟨H', u, hm, htook ht, .inr ⟨hfit ▸ hnone, hsome, hmem', hue⟩⟩

end Xv6.Umalloc
