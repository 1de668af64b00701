import Xv6Threading.Lib.Machine
import Xv6Threading.Heap.Malloc

/-!
# The heap of a program (`umalloc.c`)

`malloc` and `free` as a program calls them, where `sbrk` is only known to return fresh memory (`fresh gap`). A block of
the free list or of the program starts with its header.

| here | there |
| --- | --- |
| `Sys.live` | history: what `malloc` has returned and was not freed since, with the `nbytes` of the request |
| `Act.store u v` | the program writes into a block it has; `v` is what is then read at `u` as a header |
-/

namespace Xv6.Malloc

open Function
open Umalloc (Header Heap WF Ready Took blockEnd fresh amount)

structure Sys where
  heap : Heap
  live : List (Nat × BitVec 32)

inductive Act where
  | malloc (nbytes : BitVec 32) (gap : Option Nat)
  | free (p : Nat)
  | store (u : Nat) (v : Header)

namespace Sys

def malloc (s : Sys) (nbytes : BitVec 32) (gap : Option Nat) : Option Sys :=
  match s.heap.malloc (fresh gap) nbytes with
  | (_, none) => none
  | (H, some none) => some { s with heap := H }
  | (H, some (some p)) => some ⟨H, (p, nbytes) :: s.live⟩

def free (s : Sys) (p : Nat) : Option Sys :=
  if p ∈ s.live.map Prod.fst then
    (s.heap.free p).map fun H => ⟨H, s.live.filter fun e => e.1 ≠ p⟩
  else none

/-- One of the eight bytes from `u` on is behind the header of a block of the program. -/
def writable (s : Sys) (u : Nat) : Prop := ∃ e ∈ s.live, e.1 < u + 8 ∧ u < blockEnd s.heap.hdr (e.1 - 8)

instance (s : Sys) (u : Nat) : Decidable (s.writable u) := inferInstanceAs (Decidable (∃ e ∈ s.live, _))

def store (s : Sys) (u : Nat) (v : Header) : Option Sys :=
  if s.writable u then some { s with heap := { s.heap with hdr := update s.heap.hdr u v } } else none

def step (s : Sys) : Act → Option Sys
  | .malloc nbytes gap => s.malloc nbytes gap
  | .free p => s.free p
  | .store u v => s.store u v

end Sys

/-- Nothing has been allocated. -/
def machine : Machine Sys Act where
  init s := s.heap.freep = none ∧ s.heap.base + 8 ≤ s.heap.mem.brk ∧ s.heap.mem.brk < 2 ^ 32 ∧ s.heap.mem.regions = [] ∧
    s.live = []
  step := Sys.step

/-- The bytes of a request and of its header, rounded up to whole headers. -/
def rounded (nbytes : BitVec 32) : Nat := 8 * ((nbytes.toNat + 7) / 8 + 1)

/-- The rounded size of each request is a positive `int`. -/
def Fits (_ : Sys) : Act → Prop
  | .malloc nbytes _ => rounded nbytes < 2 ^ 31
  | .free _ | .store _ _ => True

instance (s : Sys) : (a : Act) → Decidable (Fits s a)
  | .malloc nbytes _ => inferInstanceAs (Decidable (rounded nbytes < 2 ^ 31))
  | .free _ | .store _ _ => inferInstanceAs (Decidable True)

/-- The headers of the blocks of the program. -/
def Sys.headers (s : Sys) : Set Nat := {u | u + 8 ∈ s.live.map Prod.fst}

theorem Sys.mem_headers {s : Sys} {e : Nat × BitVec 32} (he : e ∈ s.live) (hpos : 8 ≤ e.1) : e.1 - 8 ∈ s.headers := by
  show e.1 - 8 + 8 ∈ s.live.map Prod.fst
  rw [Nat.sub_add_cancel hpos]
  exact List.mem_map_of_mem he

structure Inv (s : Sys) : Prop where
  ready : Ready s.heap s.headers
  nodup : (s.live.map Prod.fst).Nodup
  fits : ∀ e ∈ s.live, 8 ≤ e.1 ∧ e.1 + e.2.toNat ≤ blockEnd s.heap.hdr (e.1 - 8)

variable {N : Set Nat} {p u : Nat} {s s' : Sys} {nbytes : BitVec 32}

/-- No overflow in `nbytes + sizeof(Header) - 1`. -/
theorem nunits_eq (h : nbytes.toNat + 7 < 2 ^ 32) : 8 * Heap.nunits nbytes = rounded nbytes := by
  have hadd : (nbytes + 7).toNat = nbytes.toNat + 7 := by
    rw [BitVec.toNat_add, Nat.mod_eq_of_lt]
    · rfl
    · exact h
  rw [Heap.nunits, hadd, rounded]

/-- The blocks of the program keep their sizes. -/
theorem Inv.fits_frame {H : Heap} (h : Inv s) {e : Nat × BitVec 32} (he : e ∈ s.live)
    (hframe : e.1 - 8 ∈ s.headers → H.hdr (e.1 - 8) = s.heap.hdr (e.1 - 8)) :
    8 ≤ e.1 ∧ e.1 + e.2.toNat ≤ blockEnd H.hdr (e.1 - 8) := by
  obtain ⟨hpos, hfit⟩ := h.fits e he
  refine ⟨hpos, ?_⟩
  unfold blockEnd at hfit ⊢
  rwa [hframe (Sys.mem_headers he hpos)]

/-- `malloc` returns, and what it returns is new and large enough. -/
theorem Inv.malloc (h : Inv s) (hint : rounded nbytes < 2 ^ 31) (gap : Option Nat) :
    ∃ H, (s.heap.malloc (fresh gap) nbytes = (H, some none) ∧ Inv { s with heap := H }) ∨
      ∃ p, s.heap.malloc (fresh gap) nbytes = (H, some (some p)) ∧ Inv ⟨H, (p, nbytes) :: s.live⟩ := by
  have hunits : 8 * Heap.nunits nbytes = rounded nbytes := nunits_eq (by unfold rounded at hint; omega)
  have hlt : 8 * Heap.nunits nbytes < 2 ^ 31 := by omega
  rcases Umalloc.malloc_spec h.ready hlt (Umalloc.grows_fresh gap _ _) with
    ⟨H, hm, hr, -, hframe⟩ | ⟨H, u, hm, ⟨⟨M, hwf⟩, hu, hsize, hframe⟩, -⟩
  · exact ⟨H, .inl ⟨hm, hr, h.nodup, fun e he => h.fits_frame he (hframe _)⟩⟩
  refine ⟨H, .inr ⟨u + 8, hm, .inr ⟨M, ?_⟩, List.nodup_cons.2 ⟨hu, h.nodup⟩, fun e he => ?_⟩⟩
  · have hset : Sys.headers ⟨H, (u + 8, nbytes) :: s.live⟩ = insert u s.headers := by
      ext v
      simp [Sys.headers]
    rwa [hset]
  obtain rfl | he := List.mem_cons.1 he
  · refine ⟨by simp only; omega, ?_⟩
    simp only [Nat.add_sub_cancel, blockEnd, hsize]
    unfold rounded at hunits
    omega
  · exact h.fits_frame he (hframe _)

/-- A block of the program. -/
theorem Inv.exists_wf (h : Inv s) {e : Nat × BitVec 32} (he : e ∈ s.live) :
    ∃ N u, WF s.heap N s.headers ∧ e.1 = u + 8 ∧ u ∈ s.headers := by
  obtain ⟨hpos, -⟩ := h.fits e he
  have hmem := Sys.mem_headers he hpos
  obtain ⟨-, -, -, hempty⟩ | ⟨N, hwf⟩ := h.ready
  · exact absurd (hempty ▸ hmem) (Set.notMem_empty _)
  · exact ⟨N, e.1 - 8, hwf, by omega, hmem⟩

/-- `free` of a block of the program returns. -/
theorem Inv.free (h : Inv s) (hp : p ∈ s.live.map Prod.fst) :
    ∃ H, s.heap.free p = some H ∧ Inv ⟨H, s.live.filter fun e => e.1 ≠ p⟩ := by
  obtain ⟨e, he, rfl⟩ := List.mem_map.1 hp
  obtain ⟨N, u, hwf, hu, hmem⟩ := h.exists_wf he
  rw [hu]
  obtain ⟨H, M, -, hfree, hwf', -, hframe, -⟩ := Umalloc.free_spec hwf hmem
  refine ⟨H, hfree, .inr ⟨M, ?_⟩, h.nodup.sublist (List.filter_sublist.map Prod.fst), fun e he => ?_⟩
  · have hset : Sys.headers ⟨H, s.live.filter fun e => e.1 ≠ u + 8⟩ = s.headers \ {u} := by
      ext v
      simp [Sys.headers]
    rwa [hset]
  obtain ⟨he, hne⟩ := List.mem_filter.1 he
  have hne : e.1 ≠ u + 8 := by simpa using hne
  have hpos := (h.fits e he).1
  exact h.fits_frame he fun hmem => hframe _ hmem (by omega)

theorem Inv.store (h : Inv s) {v : Header} (hs : s.store u v = some s') : Inv s' := by
  unfold Sys.store at hs
  split at hs
  case isFalse => cases hs
  rename_i hw
  obtain rfl := Option.some.inj hs
  obtain ⟨e, he, heu, hue⟩ := hw
  obtain ⟨N, a, hwf, ha, hmem⟩ := h.exists_wf he
  rw [ha, Nat.add_sub_cancel] at hue
  obtain ⟨hwf', hframe⟩ := hwf.store hmem (by omega) hue v
  exact ⟨.inr ⟨N, hwf'⟩, h.nodup, fun e he => h.fits_frame he (hframe _)⟩

theorem inv_reach (h : machine.ReachBy Fits s) : Inv s := by
  refine h.inv (I := Inv) ?_ ?_
  · rintro s ⟨hf, hb, hlt, -, hlive⟩
    have hempty : s.headers = ∅ := by
      ext u
      simp [Sys.headers, hlive]
    exact ⟨.inl ⟨hf, hb, hlt, hempty⟩, by simp [hlive], by simp [hlive]⟩
  intro s a s' h hfits hs
  cases a with
  | malloc nbytes gap =>
    replace hs : s.malloc nbytes gap = some s' := hs
    unfold Sys.malloc at hs
    obtain ⟨H, ⟨hm, hinv⟩ | ⟨p, hm, hinv⟩⟩ := h.malloc hfits gap
    · rw [hm] at hs
      exact Option.some.inj hs ▸ hinv
    · rw [hm] at hs
      exact Option.some.inj hs ▸ hinv
  | free p =>
    replace hs : s.free p = some s' := hs
    unfold Sys.free at hs
    split at hs
    case isFalse => cases hs
    rename_i hp
    obtain ⟨H, hfree, hinv⟩ := h.free hp
    rw [hfree] at hs
    exact Option.some.inj hs ▸ hinv
  | store u v => exact h.store hs

/-- The free list is `s.heap.base :: l`. -/
structure Ordered (s : Sys) (l : List Nat) : Prop where
  ascending : (s.heap.base :: l).Pairwise (· < ·)
  linked : (s.heap.base :: l).IsChain fun a b => (s.heap.hdr a).ptr = b
  wrap : (s.heap.hdr ((s.heap.base :: l).getLast (List.cons_ne_nil _ l))).ptr = s.heap.base
  freep : ∃ f ∈ s.heap.base :: l, s.heap.freep = some f
  /-- The blocks are disjoint and do not touch. -/
  apart : l.Pairwise fun a b => blockEnd s.heap.hdr a < b
  live : ∀ a ∈ l, ∀ e ∈ s.live, blockEnd s.heap.hdr a ≤ e.1 - 8 ∨ blockEnd s.heap.hdr (e.1 - 8) ≤ a
  distinct : ∀ e ∈ s.live, ∀ e' ∈ s.live, e.1 < e'.1 → blockEnd s.heap.hdr (e.1 - 8) ≤ e'.1 - 8
  owned : ∀ a, a ∈ l ∨ a ∈ s.headers → ∀ y, a ≤ y → y < blockEnd s.heap.hdr a → s.heap.mem.Owns y

theorem ordered_of_wf (hfits : ∀ e ∈ s.live, 8 ≤ e.1) (h : WF s.heap N s.headers) : ∃ l, Ordered s l := by
  have hb := h.blocks
  have hring : CircList (fun a => (s.heap.hdr a).ptr) s.heap.base s.heap.mem.brk N := hb.ring
  obtain ⟨l, hsorted, hmem, hchain, hlast⟩ := hring.exists_list
  obtain ⟨f, hf, hfp⟩ := h.freep
  have hN : ∀ a ∈ l, a ∈ N := fun a ha => (hmem a).1 (List.mem_cons_of_mem _ ha)
  have hheader : ∀ e ∈ s.live, e.1 - 8 ∈ s.headers := fun e he => Sys.mem_headers he (hfits e he)
  have hapart : ∀ a b, a ∈ N ∨ a ∈ s.headers → b ∈ N ∨ b ∈ s.headers → a < b → blockEnd s.heap.hdr a ≤ b := hb.apart
  refine ⟨l, hsorted, hchain, hlast, ⟨f, (hmem f).2 hf, hfp⟩, ?_, ?_, ?_, ?_⟩
  · -- the node after `a` comes first, and there is a gap before it
    refine (List.pairwise_cons.1 hsorted).2.imp_of_mem fun {a b} ha hb' hab => ?_
    obtain ⟨hup, hle⟩ := hring.le_or_next_le (hN a ha) (hN b hb') hab
    exact Nat.lt_of_lt_of_le (h.gap a (hN a ha) (Set.notMem_empty a) hup) hle
  · intro a ha e he
    have hne : a ≠ e.1 - 8 := fun heq => hb.disj a (hN a ha) (heq ▸ hheader e he)
    obtain hlt | hlt := Nat.lt_or_gt_of_ne hne
    · exact .inl (hapart a _ (.inl (hN a ha)) (.inr (hheader e he)) hlt)
    · exact .inr (hapart _ a (.inr (hheader e he)) (.inl (hN a ha)) hlt)
  · intro e he e' he' hlt
    have h8 := hfits e he
    exact hapart _ _ (.inr (hheader e he)) (.inr (hheader e' he')) (by omega)
  · intro a ha y hay hya
    exact h.owned y ⟨a, ha.imp (hN a) id, hay, hya⟩

/-- **The heap of a program.** Whatever a program does with `malloc`, `free` and the blocks it has, and wherever the
memory comes from, as long as the sizes are those of an `int`: once there has been a request, the free list goes from
the base through blocks in ascending order and from the last one back to the base; the blocks are disjoint, do not
touch, are disjoint from those of the program, which are disjoint from each other, and all are in memory that was
obtained from `sbrk`. Each block of the program has the bytes that were asked for. `malloc`, of a size for which that is
so, and `free` of a block return. -/
theorem heap_ordered (h : machine.ReachBy Fits s) :
    (s.heap.freep = none ∧ s.live = [] ∨ ∃ l, Ordered s l) ∧
      (∀ e ∈ s.live, e.1 + e.2.toNat ≤ blockEnd s.heap.hdr (e.1 - 8)) ∧
      (∀ nbytes gap, rounded nbytes < 2 ^ 31 → (s.heap.malloc (fresh gap) nbytes).2.isSome) ∧
      ∀ e ∈ s.live, (s.heap.free e.1).isSome := by
  have hinv := inv_reach h
  refine ⟨?_, fun e he => (hinv.fits e he).2, ?_, ?_⟩
  · obtain ⟨hf, -, -, hempty⟩ | ⟨N, hwf⟩ := hinv.ready
    · refine .inl ⟨hf, List.eq_nil_iff_forall_not_mem.2 fun e he => ?_⟩
      exact absurd (hempty ▸ Sys.mem_headers he (hinv.fits e he).1) (Set.notMem_empty _)
    · exact .inr (ordered_of_wf (fun e he => (hinv.fits e he).1) hwf)
  · intro nbytes gap hint
    obtain ⟨H, ⟨hm, -⟩ | ⟨p, hm, -⟩⟩ := hinv.malloc hint gap
    · simp [hm]
    · simp [hm]
  · intro e he
    obtain ⟨H, hfree, -⟩ := hinv.free (List.mem_map_of_mem he)
    simp [hfree]

/-- Three blocks from one region and one from another, at an odd address; the second one and the first are freed. -/
theorem heap_ordered_odd : ∃ s, machine.ReachBy Fits s ∧ s.live = [(36873, 40000), (36528, 10)] ∧
    ∃ l, Ordered s l := by
  have hinit : machine.init ⟨⟨fun _ => ⟨0, 0⟩, 100, none, 4096, [], []⟩, []⟩ := ⟨rfl, by decide, by decide, rfl, rfl⟩
  obtain ⟨s, hs, hp⟩ := Machine.exists_reachBy (G := Fits) hinit
    [.malloc 100 (some 0), .malloc 200 none, .malloc 10 none, .store 36530 ⟨7, 7⟩, .malloc 40000 (some 1),
      .free 36552, .free 36760]
    (fun s => s.live = [(36873, 40000), (36528, 10)]) (by decide)
  have hlive := of_decide_eq_true hp
  obtain ⟨⟨-, hnil⟩ | hordered, -⟩ := heap_ordered hs
  · rw [hlive] at hnil
    cases hnil
  · exact ⟨s, hs, hlive, hordered⟩

end Xv6.Malloc
