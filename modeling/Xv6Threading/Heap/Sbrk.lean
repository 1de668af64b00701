import Xv6Threading.Heap.Regions
import Xv6Threading.Lib.Outcome

/-!
# `malloc` and the amounts it asks for (`umalloc.c:46-90`, `sysproc.c:45-57`, `proc.c:171-188`)

`malloc` rounds `nbytes` up with `nbytes + 7`, `morecore` passes `nu * sizeof(Header)` to `sbrk`, and `sys_sbrk` reads the
request as an `int`: the first two wrap at `2 ^ 32`, and the last makes large requests negative. Nothing of this is
checked. Here `malloc` runs on a process that grows and shrinks as `growproc` does it (`sysSbrk`); if `sbrk` has not
added the memory, the store to the header of the new block may be a page fault.
-/

namespace Xv6.Malloc

open Umalloc
open Vm (KERNBASE)

/-! ## `growproc` -/

theorem allocLoop_size {L : Vm.Layout} {oldsz newsz : Nat} : ∀ (n : Nat) (s : Vm.Space) (v : Nat),
    Returns (Vm.allocLoop L oldsz newsz n s v) fun r => r.2 = newsz ∨ r.2 = 0
  | 0, _, _ => (returns_ok _).2 (.inl rfl)
  | n + 1, s, v => by
    rw [Vm.allocLoop]
    split
    · exact (returns_map _ _).2 fun _ _ => .inr rfl
    split
    · exact returns_error _
    · exact allocLoop_size n _ _
    · exact (returns_bind _ _).2 fun _ _ => (returns_map _ _).2 fun _ _ => .inr rfl

/-- `resize` is what `growproc` does to the size, which stays as it was if `growproc` fails. -/
theorem resize_growproc (L : Vm.Layout) (s : Vm.Space) (sz : Nat) (n : Int) :
    Returns (Vm.growproc L s sz n) fun r => (∃ ok, resize sz n ok = if r.2.2 = 0 then some r.2.1 else none) ∧
      (r.2.2 ≠ 0 → r.2.1 = sz) := by
  -- a new size of 0 is the failure of both functions
  have hend : ∀ {x : Except Vm.Panic (Vm.Space × Nat)},
      Returns x (fun r => ∃ ok, resize sz n ok = if r.2 = 0 then none else some r.2) →
      Returns (x.map fun r => if r.2 = 0 then (r.1, sz, (-1 : Int)) else (r.1, r.2, 0))
        fun r => (∃ ok, resize sz n ok = if r.2.2 = 0 then some r.2.1 else none) ∧ (r.2.2 ≠ 0 → r.2.1 = sz) := by
    intro x hx
    refine (returns_map _ _).2 fun r hr => ?_
    obtain ⟨ok, h⟩ := hx r hr
    split at h
    case isTrue h0 => exact ⟨⟨ok, by rw [h, if_pos h0]; rfl⟩, fun _ => by rw [if_pos h0]⟩
    case isFalse h0 => exact ⟨⟨ok, by rw [h, if_neg h0]; rfl⟩, fun hne => absurd (by rw [if_neg h0]) hne⟩
  unfold Vm.growproc
  split
  case isTrue hpos =>
    refine hend ?_
    unfold Vm.allocuvm
    simp only [resize, if_pos hpos]
    split
    · exact (returns_ok _).2 ⟨true, rfl⟩
    split
    case isTrue hlt => exact (returns_ok _).2 ⟨true, by rw [if_neg (by omega)]⟩
    case isFalse hlt =>
      intro r hr
      by_cases h0 : r.2 = 0
      · exact ⟨false, by rw [if_pos h0, if_neg (by decide)]⟩
      · exact ⟨true, by rw [if_neg h0, if_pos rfl, (allocLoop_size _ _ _ r hr).resolve_right h0]⟩
  case isFalse hpos =>
    split
    case isTrue hneg =>
      refine hend ?_
      unfold Vm.deallocuvm
      simp only [resize, if_neg hpos, if_pos hneg]
      split
      · exact (returns_ok _).2 ⟨true, rfl⟩
      · exact (returns_map _ _).2 fun _ _ => ⟨true, rfl⟩
    case isFalse hneg =>
      exact (returns_ok _).2 ⟨⟨true, by simp only [resize, if_neg hpos, if_neg hneg, if_true]⟩, fun hne => absurd rfl hne⟩

/-! ## The amounts -/

variable {H H' : Heap} {N A : Set Nat} {n : Nat} {ok : Nat → Bool} {nbytes : BitVec 32}

/-- The heap of a process. -/
structure Runs (H : Heap) (N A : Set Nat) : Prop where
  wf : WF H N A
  size : H.mem.brk < KERNBASE

/-- `sbrk` is asked first of all. -/
theorem asked_morecore (H : Heap) (n : Nat) (ok : Nat → Bool) :
    (H.morecore (sysSbrk ok) n).1.mem.asked = (BitVec.ofNat 32 (amount n)).toInt :: H.mem.asked := by
  have hsbrk : (sysSbrk ok H.mem (BitVec.ofNat 32 (amount n)).toInt).1.asked =
      (BitVec.ofNat 32 (amount n)).toInt :: H.mem.asked := by
    unfold sysSbrk
    cases resize H.mem.brk (BitVec.ofNat 32 (amount n)).toInt (ok H.mem.asked.length) <;> rfl
  rw [← hsbrk]
  unfold Heap.morecore amount
  dsimp only
  rcases sysSbrk ok H.mem (BitVec.ofNat 32 (8 * if n < 4096 then 4096 else n)).toInt with ⟨m, _ | p⟩
  · rfl
  simp only []
  split
  · split
    case h_1 => rfl
    case h_2 H' hfree =>
      obtain ⟨f, -, hplace⟩ := Option.bind_eq_some_iff.1 hfree
      obtain ⟨q, -, rfl⟩ := Option.map_eq_some_iff.1 hplace
      rfl
  · rfl

theorem asked_mallocLoop (ok : Nat → Bool) (n : Nat) : ∀ (k : Nat) (H : Heap) (pp p : Nat),
    H.mem.asked <:+ (Heap.mallocLoop (sysSbrk ok) n k H pp p).1.mem.asked
  | 0, _, _, _ => List.suffix_refl _
  | k + 1, H, pp, p => by
    rw [Heap.mallocLoop]
    split
    · unfold Heap.take
      split <;> exact List.suffix_refl _
    split
    · have hmore := asked_morecore H n ok
      have hstep : H.mem.asked <:+ (H.morecore (sysSbrk ok) n).1.mem.asked := hmore ▸ List.suffix_cons _ _
      split
      case h_1 t q heq =>
        rw [heq] at hstep
        exact hstep.trans (asked_mallocLoop ok n k t q _)
      case h_2 t r _ heq =>
        rw [heq] at hstep
        exact hstep
    · exact asked_mallocLoop ok n k H p _

/-- After a search without success, `sbrk` is asked for `amount n`. -/
theorem asked_more (H : Heap) (n : Nat) (ok : Nat → Bool) (k : Nat) :
    (BitVec.ofNat 32 (amount n)).toInt :: H.mem.asked <:+ (more (sysSbrk ok) n k H).1.mem.asked := by
  rw [← asked_morecore H n ok, more]
  split
  case h_1 t q heq =>
    rw [heq]
    exact asked_mallocLoop ok n k t q _
  case h_2 t r _ heq => simp only [heq, List.suffix_refl]

/-- All amounts that `sbrk` was asked for in the call are positive, and the call returns: null, or a block with room for
`nbytes` bytes, all of which `sbrk` has given. -/
def Sound (nbytes : BitVec 32) (H : Heap) (r : Heap × Option (Option Nat)) : Prop :=
  (∃ l, r.1.mem.asked = l ++ H.mem.asked ∧ ∀ n ∈ l, 0 < n) ∧ ∃ q, r.2 = some q ∧ ∀ p ∈ q,
    p + nbytes.toNat ≤ blockEnd r.1.hdr (p - 8) ∧ ∀ y, p ≤ y → y < p + nbytes.toNat → r.1.mem.Owns y

/-- The amount is not positive, and there is no block of that size. -/
theorem not_sound_of_large (h : Runs H.start N A) (hlow : 2 ^ 31 ≤ rounded nbytes) (hhigh : nbytes.toNat + 7 < 2 ^ 32)
    (hasked : H.start.mem.asked = H.mem.asked) : ¬ Sound nbytes H (H.malloc (sysSbrk ok) nbytes) := by
  rintro ⟨⟨l, hl, hpos⟩, -⟩
  have hunits := nunits_eq hhigh
  have hk : KERNBASE = 2 ^ 31 := rfl
  have hsz := h.size
  obtain ⟨f, hf, hfp⟩ := h.wf.freep
  have hd := h.wf.dist_lt (p := (H.start.hdr f).ptr) hf
  rw [malloc_eq hfp] at hl
  rcases mallocLoop_search h.wf hf hfp (sysSbrk ok) (Heap.nunits nbytes) fuel hf rfl (hd.trans (by decide)) with
    ⟨pp, x, hpp, hx, hfit, -⟩ | ⟨-, -, k, -, hm⟩
  · have hend := h.wf.blocks.top x (.inl (hx ▸ h.wf.blocks.ring.next_mem pp hpp))
    omega
  have hmore := asked_more H.start (Heap.nunits nbytes) ok k
  rw [← hm, hl, hasked] at hmore
  obtain ⟨t, ht⟩ := hmore
  have hmem : (BitVec.ofNat 32 (amount (Heap.nunits nbytes))).toInt ∈ l := by
    rw [List.append_cancel_right (ht.symm.trans (List.append_cons ..))]
    exact List.mem_append_right _ (List.mem_singleton.2 rfl)
  have hneg := hpos _ hmem
  have hround : rounded nbytes ≤ 2 ^ 32 := by
    unfold rounded
    omega
  have hamount : amount (Heap.nunits nbytes) = rounded nbytes := by
    rw [amount, if_neg (by omega), hunits]
  rw [hamount, BitVec.toInt_eq_toNat_cond, BitVec.toNat_ofNat] at hneg
  split at hneg <;> omega

/-! ## `malloc` -/

theorem sound_of_null (hasked : H'.mem.asked = (amount n : Int) :: H.mem.asked) : Sound nbytes H (H', some none) := by
  refine ⟨⟨[(amount n : Int)], hasked, fun a ha => ?_⟩, none, rfl, fun p hp => by cases hp⟩
  have := amount_pos n
  rw [List.mem_singleton.1 ha]
  omega

/-- A block of the size that was asked for. -/
theorem sound_of_block {H₀ : Heap} {u : Nat} (ht : Took H₀ H' A n u) (hn : nbytes.toNat + 8 ≤ 8 * n)
    (hasked : H'.mem.asked = H.mem.asked ∨ H'.mem.asked = (amount n : Int) :: H.mem.asked) :
    Sound nbytes H (H', some (some (u + 8))) := by
  have hend : blockEnd H'.hdr u = u + 8 * n := by rw [blockEnd, ht.size]
  obtain ⟨M, hwf⟩ := ht.wf
  refine ⟨?_, some (u + 8), rfl, ?_⟩
  · rcases hasked with h | h
    · exact ⟨[], h, fun a ha => by cases ha⟩
    · exact (sound_of_null h : Sound nbytes H (H', some none)).1
  intro p hp
  obtain rfl := Option.mem_some_iff.1 hp
  refine ⟨by show _ ≤ blockEnd H'.hdr u; omega, fun y h1 h2 => hwf.owned y ⟨u, .inr (.inl rfl), by omega, ?_⟩⟩
  omega

/-- What `malloc` of `n` headers comes to, if `amount n` is a positive `int`. -/
theorem mallocLoop_sysSbrk {f : Nat} (ok : Nat → Bool) (h : Runs H N A) (hf : f ∈ N) (hfp : H.freep = some f)
    (hn : 0 < n) (hamount : amount n < 2 ^ 31) :
    (((∀ c ∈ N, (H.hdr c).size < n) ∧ resize H.mem.brk (amount n) (ok H.mem.asked.length) = none) ∧
      ∃ H', Heap.mallocLoop (sysSbrk ok) n fuel H f (H.hdr f).ptr = (H', some none) ∧
        H'.mem.asked = (amount n : Int) :: H.mem.asked) ∨
    (¬ ((∀ c ∈ N, (H.hdr c).size < n) ∧ resize H.mem.brk (amount n) (ok H.mem.asked.length) = none) ∧ ∃ H' u,
      Heap.mallocLoop (sysSbrk ok) n fuel H f (H.hdr f).ptr = (H', some (some (u + 8))) ∧ Took H H' A n u ∧
        (H'.mem.asked = H.mem.asked ∨ H'.mem.asked = (amount n : Int) :: H.mem.asked)) := by
  have hpos := amount_pos n
  rcases mallocLoop_spec h.wf hf hfp hn hamount (grows_sysSbrk ok hpos hamount h.size) with
    ⟨H', u, x, -, hx, hsz, hm, ht, hmem, -⟩ | ⟨-, hsmall, hor⟩
  · exact .inr ⟨fun hno => absurd (hno.1 x hx) (Nat.not_lt.2 hsz), H', u, hm, ht, .inl (by rw [hmem])⟩
  rcases sysSbrk_pos ok hpos hamount h.size with ⟨hnone, hs⟩ | ⟨hsome, -, hs⟩
  · rcases hor with ⟨-, hm⟩ | ⟨hne, -⟩
    · exact .inl ⟨⟨hsmall, hnone⟩, _, hm, rfl⟩
    · exact absurd (congrArg Prod.snd hs) hne
  · rcases hor with ⟨hnone, -⟩ | ⟨-, H', u, hm, ht, hmem, -⟩
    · exact absurd (hnone.symm.trans (congrArg Prod.snd hs)) (Option.some_ne_none _).symm
    · exact .inr ⟨fun hno => hsome hno.2, H', u, hm, ht, .inr (by rw [hmem, hs]; rfl)⟩

/-- **When `malloc` never under-allocates.** On any heap, whatever pages there are: the call asks `sbrk` for positive amounts
only, and returns null or a block that is large enough and lies in memory of the process, if and only if the rounded size
is a positive `int`; or `nbytes + 7` wraps, and there is neither a free block nor memory for one. -/
theorem malloc_sound_iff (h : Runs H.start N A) (nbytes : BitVec 32) (ok : Nat → Bool) :
    Sound nbytes H (H.malloc (sysSbrk ok) nbytes) ↔ rounded nbytes < 2 ^ 31 ∨ (2 ^ 32 ≤ nbytes.toNat + 7 ∧
      (∀ c ∈ N, (H.start.hdr c).size = 0) ∧ resize H.mem.brk 32768 (ok H.mem.asked.length) = none) := by
  obtain ⟨f, hf, hfp⟩ := h.wf.freep
  have hmem : H.start.mem = H.mem := by
    unfold Heap.start
    split <;> rfl
  have hlt := nbytes.isLt
  by_cases hwrap : 2 ^ 32 ≤ nbytes.toNat + 7
  · have hone : Heap.nunits nbytes = 1 := by
      have hadd : (nbytes + 7).toNat = nbytes.toNat + 7 - 2 ^ 32 := by
        rw [BitVec.toNat_add]
        show (nbytes.toNat + 7) % 2 ^ 32 = _
        omega
      rw [Heap.nunits, hadd]
      omega
    have hbig : ¬ rounded nbytes < 2 ^ 31 := by
      unfold rounded
      omega
    rw [malloc_eq hfp, hone, or_iff_right hbig, and_iff_right hwrap, ← hmem]
    rcases mallocLoop_sysSbrk (n := 1) ok h hf hfp Nat.one_pos (by decide) with
      ⟨⟨hsmall, hnone⟩, H', hm, hasked⟩ | ⟨hno, H', u, hm, ht, -⟩
    · rw [hm]
      exact iff_of_true (sound_of_null (n := 1) (hmem ▸ hasked)) ⟨fun c hc => Nat.lt_one_iff.1 (hsmall c hc), hnone⟩
    rw [hm]
    refine iff_of_false ?_ fun hno' => hno ⟨fun c hc => Nat.lt_one_iff.2 (hno'.1 c hc), hno'.2⟩
    rintro ⟨-, q, hq, hblock⟩
    have hend := (hblock (u + 8) (by cases hq; rfl)).1
    rw [Nat.add_sub_cancel, blockEnd, ht.size] at hend
    omega
  rw [or_iff_left fun hor => hwrap hor.1]
  by_cases hround : rounded nbytes < 2 ^ 31
  · refine iff_of_true ?_ hround
    have hunits : 8 * Heap.nunits nbytes = rounded nbytes := nunits_eq (by omega)
    have hsize : nbytes.toNat + 8 ≤ 8 * Heap.nunits nbytes := by
      rw [hunits, rounded]
      omega
    have hlt' : 8 * Heap.nunits nbytes < 2 ^ 31 := by omega
    have hpos : 0 < Heap.nunits nbytes := Nat.succ_pos _
    rw [malloc_eq hfp]
    rcases mallocLoop_sysSbrk ok h hf hfp hpos (amount_lt hlt') with
      ⟨-, H', hm, hasked⟩ | ⟨-, H', u, hm, ht, hasked⟩
    · rw [hm]
      exact sound_of_null (hmem ▸ hasked)
    · rw [hm]
      exact sound_of_block ht hsize (hmem ▸ hasked)
  · exact iff_of_false (not_sound_of_large h (by omega) (by omega) (by rw [hmem])) hround

/-- The heap of a process of two pages that has not called `malloc` yet. -/
def twoPages : Heap := ⟨fun _ => ⟨0, 0⟩, 4096, none, 8192, [], []⟩

theorem twoPages_runs : Runs twoPages.start {4096} ∅ :=
  ⟨(start_spec (H := twoPages) rfl (by decide) (by decide)).1, by decide⟩

theorem malloc_sound_hundred :
    rounded 100#32 < 2 ^ 31 ∧ Sound 100#32 twoPages (twoPages.malloc (sysSbrk fun _ => true) 100#32) :=
  ⟨by decide, (malloc_sound_iff twoPages_runs 100#32 fun _ => true).2 (.inl (by decide))⟩

/-- `malloc(0xffffffff)` takes one header: what it returns is the end of the memory. `malloc(0x7ffffff1)` asks for a
negative amount: nothing is added, and the store to the header behind the memory kills the process. -/
theorem malloc_wraps : ¬ Sound 0xffffffff#32 twoPages (twoPages.malloc (sysSbrk fun _ => true) 0xffffffff#32) ∧
    (twoPages.malloc (sysSbrk fun _ => true) 0xffffffff#32).2 = some (some 40960) ∧
    (twoPages.malloc (sysSbrk fun _ => true) 0xffffffff#32).1.mem.brk = 40960 ∧
    ¬ Sound 0x7ffffff1#32 twoPages (twoPages.malloc (sysSbrk fun _ => true) 0x7ffffff1#32) ∧
    (twoPages.malloc (sysSbrk fun _ => true) 0x7ffffff1#32).2 = none ∧
    (twoPages.malloc (sysSbrk fun _ => true) 0x7ffffff1#32).1.mem.brk = 8192 ∧
    (twoPages.malloc (sysSbrk fun _ => true) 0x7ffffff1#32).1.mem.asked = [-2147483648] := by
  have hend : (twoPages.malloc (sysSbrk fun _ => true) 0xffffffff#32).2 = some (some 40960) ∧
      blockEnd (twoPages.malloc (sysSbrk fun _ => true) 0xffffffff#32).1.hdr 40952 = 40960 := by decide
  refine ⟨?_, hend.1, by decide, not_sound_of_large twoPages_runs (by decide) (by decide) rfl, by decide⟩
  rintro ⟨-, q, hq, hblock⟩
  rw [hend.1] at hq
  cases hq
  have hroom := (hblock 40960 rfl).1
  rw [hend.2] at hroom
  exact absurd hroom (by decide)

end Xv6.Malloc
