import Xv6Threading.Lib.Machine
import Xv6Threading.Heap.Malloc

/-!
# Thread stacks come from the heap (`ulib.c:98-123`)

`thread_create` rounds what `malloc` returns up to a page boundary and gives that to `clone`; `join`
returns it, and `thread_join` frees it. So the pointer freed is the one that was allocated only if
`malloc` happened to return a multiple of the page size. It does for the first thread of a process, whose
heap starts at a page boundary and grows by eight pages, and not for the second: the block of the first
was cut off the end, with its header.

| here | there |
| --- | --- |
| `Sys.live` | history: what `malloc` has returned and was not freed since |
| `Sys.mine` | the pointers that the program has from its own calls of `malloc` |
| `Sys.ustacks` | `ustack` of the threads that are created and not joined, in the kernel's table |
| `Act.store` | the program, or a thread on its stack, writes to an allocated block |

`clone` succeeds and the thread exits, so that `join` may return any of the stacks; without a thread it does not return.
-/

namespace Xv6.Umalloc

open Vm (KERNBASE)

structure Sys where
  heap : Heap
  live : List Nat
  mine : List Nat
  ustacks : List Nat

inductive Act where
  | malloc (nbytes : BitVec 32) (ok : Bool)
  | free (p : Nat)
  | store (u : Nat) (v : Header)
  | threadCreate (ok : Bool)
  | threadJoin (i : Nat)

namespace Sys

def malloc (s : Sys) (nbytes : BitVec 32) (ok : Bool) : Option Sys :=
  match s.heap.malloc (sysSbrk fun _ => ok) nbytes with
  | (_, none) => none
  | (H, some none) => some { s with heap := H }
  | (H, some (some p)) => some { s with heap := H, live := p :: s.live, mine := p :: s.mine }

def free (s : Sys) (p : Nat) : Option Sys :=
  if p ∈ s.mine then
    (s.heap.free p).map fun H => { s with heap := H, live := s.live.erase p, mine := s.mine.erase p }
  else none

/-- One of the eight bytes from `u` on is behind the header of an allocated block. -/
def writable (s : Sys) (u : Nat) : Prop := ∃ p ∈ s.live, p < u + 8 ∧ u < blockEnd s.heap.hdr (p - 8)

instance (s : Sys) (u : Nat) : Decidable (s.writable u) := inferInstanceAs (Decidable (∃ p ∈ s.live, _))

def store (s : Sys) (u : Nat) (v : Header) : Option Sys :=
  if s.writable u then some { s with heap := { s.heap with hdr := Function.update s.heap.hdr u v } } else none

/-- Two pages for the stack; without them the process exits. -/
def threadCreate (s : Sys) (ok : Bool) : Option Sys :=
  match s.heap.malloc (sysSbrk fun _ => ok) 8192 with
  | (H, some (some p)) => some { s with heap := H, live := p :: s.live, ustacks := stackOf p :: s.ustacks }
  | _ => none

/-- `join` (`proc.c:737-772`) sleeps until there is a thread to return. -/
def threadJoin (s : Sys) (i : Nat) : Option Sys :=
  s.ustacks[i]?.bind fun st =>
    (s.heap.free st).map fun H => { s with heap := H, live := s.live.erase st, ustacks := s.ustacks.erase st }

def step (s : Sys) : Act → Option Sys
  | .malloc nbytes ok => s.malloc nbytes ok
  | .free p => s.free p
  | .store u v => s.store u v
  | .threadCreate ok => s.threadCreate ok
  | .threadJoin i => s.threadJoin i

end Sys

/-- Nothing has been allocated; the base is below the heap. -/
def machine : Machine Sys Act where
  init s := s.heap.freep = none ∧ s.heap.base + 8 ≤ s.heap.mem.brk ∧ s.heap.mem.brk < KERNBASE ∧
    s.live = [] ∧ s.mine = [] ∧ s.ustacks = []
  step := Sys.step

/-- The free list, once there is one, is a ring of disjoint blocks, apart from the allocated ones. -/
def WellFormed (s : Sys) : Prop := s.heap.freep = none ∨ ∃ N, WF s.heap N {u | u + 8 ∈ s.live}

/-- Where the block ends that a thread's stack will be cut from, which is the first free one of two pages
and a header; if there is none, the break, eight pages before the end of the one that `sbrk` adds. -/
def stackEnd (H : Heap) : Nat :=
  match H.firstFit 1025 with
  | some x => blockEnd H.hdr x
  | none => H.mem.brk

/-- Requests are for a positive `int` of bytes, and thread stacks are cut from blocks that end at a page
boundary. -/
def Aligned (s : Sys) : Act → Prop
  | .malloc nbytes _ => 8 * Heap.nunits nbytes < 2 ^ 31
  | .threadCreate _ => stackEnd s.heap % 4096 = 0
  | .free _ | .store _ _ | .threadJoin _ => True

instance (s : Sys) : (a : Act) → Decidable (Aligned s a)
  | .malloc nbytes _ => inferInstanceAs (Decidable (8 * Heap.nunits nbytes < 2 ^ 31))
  | .threadCreate _ => inferInstanceAs (Decidable (stackEnd s.heap % 4096 = 0))
  | .free _ | .store _ _ | .threadJoin _ => inferInstanceAs (Decidable True)

/-! ## The invariant -/

/-- Where the block ends that a request of `n` headers is cut from. -/
def Heap.fitEnd (H : Heap) (n : Nat) : Nat :=
  match H.firstFit n with
  | some x => blockEnd H.hdr x
  | none => H.mem.brk + amount n

/-- What the program and the threads have is what is allocated. -/
structure Inv (s : Sys) : Prop where
  ready : Ready s.heap {u | u + 8 ∈ s.live}
  size : s.heap.mem.brk < KERNBASE
  nodup : s.live.Nodup
  pos : ∀ p ∈ s.live, 8 ≤ p
  perm : s.live.Perm (s.mine ++ s.ustacks)

variable {s s' : Sys} {p : Nat}

section

variable (h : Inv s) {ok : Bool}
include h

/-- `malloc` in a state of the invariant. -/
theorem Inv.malloc (nbytes : BitVec 32) (hint : 8 * Heap.nunits nbytes < 2 ^ 31) (ok : Bool) :
    (∃ H, s.heap.malloc (sysSbrk fun _ => ok) nbytes = (H, some none) ∧ Ready H {u | u + 8 ∈ s.live} ∧
      H.mem.brk < KERNBASE) ∨
    ∃ H p, s.heap.malloc (sysSbrk fun _ => ok) nbytes = (H, some (some p)) ∧ Ready H {u | u + 8 ∈ p :: s.live} ∧
      H.mem.brk < KERNBASE ∧ p ∉ s.live ∧ 8 ≤ p ∧
      p + 8 * Heap.nunits nbytes = s.heap.fitEnd (Heap.nunits nbytes) + 8 := by
  have hpos := amount_pos (Heap.nunits nbytes)
  have hlt := amount_lt hint
  rcases malloc_spec h.ready hint (grows_sysSbrk (fun _ => ok) hpos hlt h.size) with
    ⟨H, hm, hr, hmem, -⟩ | ⟨H, u, hm, ⟨⟨M, hwf⟩, hu, hsize, -⟩, hend⟩
  · exact .inl ⟨H, hm, hr, by rw [hmem]; exact h.size⟩
  have hset : {v | v + 8 ∈ (u + 8) :: s.live} = insert u {v | v + 8 ∈ s.live} := by
    ext v
    simp
  refine .inr ⟨H, u + 8, hm, .inr ⟨M, by rwa [hset]⟩, ?_⟩
  rw [blockEnd, hsize] at hend
  rcases hend with ⟨x, hfit, hmem, hend⟩ | ⟨hfit, hne, hmem, hend⟩
  · rw [hmem, Heap.fitEnd, hfit]
    exact ⟨h.size, hu, by omega, by simp only; omega⟩
  rcases sysSbrk_pos (fun _ => ok) hpos hlt h.size with ⟨-, hs⟩ | ⟨-, hsz, hs⟩
  · exact absurd (congrArg Prod.snd hs) hne
  rw [hs] at hmem
  rw [hmem] at hend ⊢
  rw [Heap.fitEnd, hfit]
  exact ⟨hsz, hu, by omega, by simp only [Memory.add] at hend ⊢; omega⟩

/-- `free` of a pointer that is allocated. -/
theorem Inv.free (hp : p ∈ s.live) :
    ∃ H, s.heap.free p = some H ∧ Ready H {u | u + 8 ∈ s.live.erase p} ∧ H.mem = s.heap.mem := by
  have hpos := h.pos p hp
  obtain ⟨u, rfl⟩ : ∃ u, p = u + 8 := ⟨p - 8, by omega⟩
  rcases h.ready with ⟨-, -, -, hempty⟩ | ⟨N, hwf⟩
  · have : u ∈ {v | v + 8 ∈ s.live} := hp
    rw [hempty] at this
    exact absurd this (Set.notMem_empty u)
  obtain ⟨H, M, -, hfree, hwf', hmem, -⟩ := free_spec hwf (show u ∈ {v | v + 8 ∈ s.live} from hp)
  refine ⟨H, hfree, .inr ⟨M, ?_⟩, hmem⟩
  have hset : {v | v + 8 ∈ s.live.erase (u + 8)} = {v | v + 8 ∈ s.live} \ {u} := by
    ext v
    simp [h.nodup.mem_erase_iff, and_comm]
  rwa [hset]

theorem inv_malloc {nbytes : BitVec 32} (hint : 8 * Heap.nunits nbytes < 2 ^ 31)
    (hs : s.malloc nbytes ok = some s') : Inv s' := by
  unfold Sys.malloc at hs
  rcases h.malloc nbytes hint ok with ⟨H, hm, hr, hsz⟩ | ⟨H, p, hm, hr, hsz, hnew, hpos, -⟩ <;> rw [hm] at hs <;> cases hs
  · exact ⟨hr, hsz, h.nodup, h.pos, h.perm⟩
  refine ⟨hr, hsz, List.nodup_cons.2 ⟨hnew, h.nodup⟩, ?_, h.perm.cons p⟩
  intro q hq
  rcases List.mem_cons.1 hq with rfl | hq
  · exact hpos
  · exact h.pos q hq

/-- A pointer of the program or of a thread is freed. -/
theorem inv_erase (hp : p ∈ s.live) {H : Heap} {mine ustacks : List Nat} (hf : s.heap.free p = some H)
    (hperm : (s.live.erase p).Perm (mine ++ ustacks)) : Inv ⟨H, s.live.erase p, mine, ustacks⟩ := by
  obtain ⟨H', hf', hr, hmem⟩ := h.free hp
  rw [hf] at hf'
  cases hf'
  exact ⟨hr, hmem ▸ h.size, h.nodup.erase p, fun q hq => h.pos q (List.mem_of_mem_erase hq), hperm⟩

theorem inv_free (hs : s.free p = some s') : Inv s' := by
  unfold Sys.free at hs
  split at hs
  next hp =>
    obtain ⟨H, hf, rfl⟩ := Option.map_eq_some_iff.1 hs
    apply inv_erase h (h.perm.mem_iff.2 (List.mem_append_left _ hp)) hf
    rw [← List.erase_append_left _ hp]
    exact h.perm.erase p
  · cases hs

theorem inv_store {u : Nat} {v : Header} (hs : s.store u v = some s') : Inv s' := by
  unfold Sys.store at hs
  split at hs
  next hw =>
    cases hs
    obtain ⟨p, hp, hpu, hup⟩ := hw
    have hpos := h.pos p hp
    refine ⟨?_, h.size, h.nodup, h.pos, h.perm⟩
    rcases h.ready with ⟨h1, h2, h3, h4⟩ | ⟨N, hwf⟩
    · exact .inl ⟨h1, h2, h3, h4⟩
    refine .inr ⟨N, (hwf.store (a := p - 8) ?_ (by omega) hup v).1⟩
    show p - 8 + 8 ∈ s.live
    rwa [Nat.sub_add_cancel hpos]
  · cases hs

/-- The pointer is at a page boundary, so it is the stack. -/
theorem inv_threadCreate (hend : stackEnd s.heap % 4096 = 0) (hs : s.threadCreate ok = some s') : Inv s' := by
  have hunits : Heap.nunits 8192 = 1025 := by decide
  unfold Sys.threadCreate at hs
  rcases h.malloc 8192 (by rw [hunits]; decide) ok with ⟨H, hm, -⟩ | ⟨H, p, hm, hr, hsz, hnew, hpos, hp⟩ <;>
    rw [hm] at hs <;> cases hs
  have hamount : amount 1025 = 32768 := by decide
  rw [hunits] at hp
  have hstack : stackOf p = p := by
    have hal : p % 4096 = 0 := by
      unfold stackEnd at hend
      unfold Heap.fitEnd at hp
      split at hp <;> rename_i hfit <;> simp only [hfit] at hend <;> omega
    rw [stackOf, if_neg (by omega)]
  rw [hstack]
  refine ⟨hr, hsz, List.nodup_cons.2 ⟨hnew, h.nodup⟩, ?_, (h.perm.cons p).trans List.perm_middle.symm⟩
  intro q hq
  rcases List.mem_cons.1 hq with rfl | hq
  · exact hpos
  · exact h.pos q hq

theorem inv_threadJoin {i : Nat} (hs : s.threadJoin i = some s') : Inv s' := by
  unfold Sys.threadJoin at hs
  obtain ⟨st, hst, hs⟩ := Option.bind_eq_some_iff.1 hs
  obtain ⟨H, hf, rfl⟩ := Option.map_eq_some_iff.1 hs
  have hmem : st ∈ s.ustacks := List.mem_of_getElem? hst
  have hlive : st ∈ s.live := h.perm.mem_iff.2 (List.mem_append_right _ hmem)
  have hnot : st ∉ s.mine := by
    have hnd := h.perm.nodup_iff.1 h.nodup
    exact fun hm => (List.nodup_append.1 hnd).2.2 st hm st hmem rfl
  apply inv_erase h hlive hf
  rw [← List.erase_append_right _ hnot]
  exact h.perm.erase st

end

theorem inv_reach (h : machine.ReachBy Aligned s) : Inv s := by
  apply h.inv (I := Inv)
  · rintro s ⟨h1, h2, h3, h4, h5, h6⟩
    have hk : KERNBASE = 2 ^ 31 := rfl
    refine ⟨.inl ⟨h1, h2, by omega, ?_⟩, h3, by simp [h4], by simp [h4], by simp [h4, h5, h6]⟩
    ext u
    simp [h4]
  intro s a t hi hg hs
  cases a with
  | malloc nbytes ok => exact inv_malloc hi hg hs
  | free p => exact inv_free hi hs
  | store u v => exact inv_store hi hs
  | threadCreate ok => exact inv_threadCreate hi hg hs
  | threadJoin i => exact inv_threadJoin hi hs

/-- **What `thread_join` frees has been allocated, and what it takes.** In every run in which requests are
for a positive `int` of bytes and each thread's stack is cut from a block that ends at a page boundary,
every stack that `join` can return is a pointer that `malloc` returned and that was not freed since, the
free list is well formed, and `malloc` and `free` return. -/
theorem stacks_are_allocated (h : machine.ReachBy Aligned s) :
    (∀ st ∈ s.ustacks, st ∈ s.live) ∧ WellFormed s ∧
    (∀ nbytes ok, 8 * Heap.nunits nbytes < 2 ^ 31 → (s.heap.malloc (sysSbrk fun _ => ok) nbytes).2.isSome) ∧
    ∀ p ∈ s.live, (s.heap.free p).isSome := by
  have hi := inv_reach h
  refine ⟨fun st hst => hi.perm.mem_iff.2 (List.mem_append_right _ hst), ?_, ?_, ?_⟩
  · exact hi.ready.imp_left And.left
  · intro nbytes ok hint
    rcases hi.malloc nbytes hint ok with ⟨H, hm, -⟩ | ⟨H, p, hm, -⟩ <;> simp [hm]
  · intro p hp
    obtain ⟨H, hf, -⟩ := hi.free hp
    simp [hf]

/-! ### A process with ten pages -/

def tenPages : Sys := ⟨⟨fun _ => ⟨0, 0⟩, 800, none, 40960, [], []⟩, [], [], []⟩

theorem tenPages_init : machine.init tenPages := ⟨rfl, by decide, by decide, rfl, rfl, rfl⟩

/-- A thread is created, joined, and created again: it gets the same stack. -/
theorem stacks_are_allocated_again : ∃ s, machine.ReachBy Aligned s ∧ s.ustacks = [65536] ∧ 65536 ∈ s.live ∧
    WellFormed s := by
  obtain ⟨s, hs, hp⟩ := Machine.exists_reachBy (G := Aligned) tenPages_init
    [.threadCreate true, .store 65536 ⟨7, 7⟩, .threadJoin 0, .malloc 100 true, .free 73624, .threadCreate true]
    (fun s => s.ustacks = [65536]) (by decide +kernel)
  have hst := of_decide_eq_true hp
  obtain ⟨hlive, hwf, -⟩ := stacks_are_allocated hs
  exact ⟨s, hs, hst, hlive 65536 (by simp [hst]), hwf⟩

/-! ### The second thread -/

/-- Two threads are created. The stack of the second is not what `malloc` returned, and `thread_join` of it
puts a block of size 0 in the free list, inside the one that is still allocated. -/
theorem stack_not_allocated :
    (∃ s, machine.Reach s ∧ ∃ st ∈ s.ustacks, st ∉ s.live) ∧ ∃ s, machine.Reach s ∧ ¬ WellFormed s := by
  constructor
  · obtain ⟨s, hs, hp⟩ := Machine.exists_reachBy (G := fun _ _ => True) tenPages_init
      [.threadCreate true, .threadCreate true] (fun s => 57344 ∈ s.ustacks ∧ 57344 ∉ s.live) (by decide)
    exact ⟨s, hs, 57344, of_decide_eq_true hp⟩
  obtain ⟨s, hs, hp⟩ := Machine.exists_reachBy (G := fun _ _ => True) tenPages_init
    [.threadCreate true, .threadCreate true, .threadJoin 0]
    (fun s => s.heap.freep = some 40960 ∧ s.heap.base = 800 ∧ (s.heap.hdr 40960).ptr = 57336 ∧
      (s.heap.hdr 57336).size = 0) (by decide)
  obtain ⟨hf, hb, hptr, hsz⟩ := of_decide_eq_true hp
  refine ⟨s, hs, ?_⟩
  rintro (hnone | ⟨N, hwf⟩)
  · rw [hf] at hnone
    cases hnone
  obtain ⟨f, hfN, hfp⟩ := hwf.freep
  rw [hf] at hfp
  cases hfp
  have hmem : 57336 ∈ N := hptr ▸ hwf.blocks.ring.next_mem 40960 hfN
  have := hwf.blocks.pos 57336 (.inl hmem) (by rw [hb]; decide)
  omega

end Xv6.Umalloc
