import Xv6Threading.Mkfs.Image
import Mathlib.Data.List.GetD

/-!
# What `iappend` leaves behind (`mkfs.c:223-297`)

As long as all inodes are in the inode blocks, the blocks from `nmeta` up to `freeblock` hold the files, every one at
one place, and those behind are zeroed. `Mid s node` says so of a state in which `node` are the inodes: while
`iappend` runs, its inode is in `din` and not on the disk.
-/

namespace Xv6.Mkfs

open Function
open Sysfile

variable {s s' s'' : State} {node node' node'' : Nat → Dinode} {i k e b sec fbn x : Nat} {buf : Block}

/-! ## Sectors -/

theorem sector_eq (h : sec ≤ FSSIZE + 2) : sector sec = sec := by
  have : sec ≤ 1002 := h
  exact Nat.mod_eq_of_lt (by omega)

theorem rsect_eq (hsize : s.size = FSSIZE) (h : sec < FSSIZE) : s.rsect sec = some (s.blk sec) := by
  rw [State.rsect, sector_eq (by omega), hsize, if_pos h]

theorem rsect_eq_some (hsize : s.size = FSSIZE) (h : sec ≤ FSSIZE + 2) :
    s.rsect sec = some buf ↔ sec < FSSIZE ∧ s.blk sec = buf := by
  rw [State.rsect, sector_eq h, hsize]
  split
  case isTrue h => simp [h]
  case isFalse h => simp [h]

theorem wsect_self (h : sec ≤ FSSIZE + 2) : (s.wsect sec buf).blk sec = buf := by
  show update s.blk (sector sec) buf sec = buf
  rw [sector_eq h, update_self]

/-- Writing a sector of the image that is there. -/
def State.put (s : State) (b : Nat) (data : Block) : State := { s with blk := update s.blk b data }

theorem put_self (s : State) (b : Nat) (data : Block) : (s.put b data).blk b = data := update_self _ _ _

theorem put_of_ne {b b' : Nat} (h : b' ≠ b) (data : Block) : (s.put b data).blk b' = s.blk b' :=
  update_of_ne h _ _

theorem wsect_eq (hsize : s.size = FSSIZE) (h : sec < FSSIZE) : s.wsect sec buf = s.put sec buf := by
  rw [State.wsect, sector_eq (by omega), hsize, Nat.max_eq_left (by omega), State.put, hsize]

/-! ## The map of a file -/

/-- The inodes given away so far. -/
def State.live (s : State) : Set Nat := Set.Ico 1 s.freeinode

structure Mid (s : State) (node : Nat → Dinode) : Prop where
  size : s.size = FSSIZE
  lo : nmeta ≤ s.freeblock
  zero : ∀ b, s.freeblock ≤ b → s.blk b = zeroes
  laid : Placement (place s.blk node) (slots s.live) (Set.Ico nmeta s.freeblock)

/-- Blocks are given away for the files of the inodes there are, and nothing else changes. -/
structure Kept (s : State) (node : Nat → Dinode) (s' : State) (node' : Nat → Dinode) : Prop where
  mid : Mid s' node'
  grown : Grown s.live s.blk node s'.blk node'
  frame : ∀ b < nmeta, s'.blk b = s.blk b
  freeinode : s'.freeinode = s.freeinode
  type : ∀ j, (node' j).type = (node j).type

theorem Kept.refl (h : Mid s node) : Kept s node s node := ⟨h, .refl _ _ _, fun _ _ => rfl, rfl, fun _ => rfl⟩

theorem live_congr (h : s'.freeinode = s.freeinode) : s'.live = s.live := by rw [State.live, h, State.live]

theorem Kept.trans (h : Kept s node s' node') (h' : Kept s' node' s'' node'') : Kept s node s'' node'' where
  mid := h'.mid
  grown := h.grown.trans (live_congr h.freeinode ▸ h'.grown)
  frame b hb := (h'.frame b hb).trans (h.frame b hb)
  freeinode := h'.freeinode.trans h.freeinode
  type j := (h'.type j).trans (h.type j)

/-- Slot `k` of inode `i` has a block now, the next one if it had none. -/
structure Filled (i k : Nat) (s : State) (node : Nat → Dinode) (s' : State) (node' : Nat → Dinode) : Prop
    extends Kept s node s' node' where
  ne : place s'.blk node' (i, k) ≠ 0
  other : ∀ p ∈ slots s.live, p ≠ (i, k) → place s'.blk node' p = place s.blk node p
  next : place s.blk node (i, k) ≠ 0 ∧ s'.freeblock = s.freeblock ∨
    place s.blk node (i, k) = 0 ∧ place s'.blk node' (i, k) = s.freeblock ∧ s'.freeblock = s.freeblock + 1

theorem Filled.of_ne (h : Mid s node) (hne : place s.blk node (i, k) ≠ 0) : Filled i k s node s node where
  toKept := .refl h
  ne := hne
  other _ _ _ := rfl
  next := .inl ⟨hne, rfl⟩

theorem Mid.fresh (h : Mid s node) (hfb : s.freeblock ≤ FSSIZE + 1) :
    (BitVec.ofNat 32 s.freeblock).toNat = s.freeblock ∧ s.freeblock ≠ 0 ∧ s.freeblock ∉ Set.Ico nmeta s.freeblock := by
  have hlo : 59 ≤ s.freeblock := h.lo
  have hhi : s.freeblock ≤ 1001 := hfb
  refine ⟨Nat.mod_eq_of_lt (by omega), by omega, ?_⟩
  simp

theorem Ico_succ (hlo : nmeta ≤ x) : insert x (Set.Ico nmeta x) = Set.Ico nmeta (x + 1) := by
  ext b
  simp only [Set.mem_insert_iff, Set.mem_Ico]
  omega

theorem mapAddr_spec (h : Mid s node) (hfb : s.freeblock ≤ FSSIZE + 1) (i : Nat) (hk : k ≤ NDIRECT) :
    Filled i k s node (s.mapAddr (node i) k).1 (update node i (s.mapAddr (node i) k).2) := by
  obtain ⟨hx, hx0, hfresh⟩ := h.fresh hfb
  rw [State.mapAddr]
  split
  case isFalse hne =>
    rw [update_eq_self]
    refine .of_ne h ?_
    rw [place_direct i hk]
    intro h0
    exact hne (BitVec.eq_of_toNat_eq h0)
  case isTrue h0 =>
    have h0' : place s.blk node (i, k) = 0 := by rw [place_direct i hk, h0]; rfl
    obtain ⟨hgrown, hlaid⟩ := Grown.setAddr (x := BitVec.ofNat 32 s.freeblock) h.laid hk h0' (by rwa [hx])
      (by rwa [hx]) (by rw [hx, h.zero _ (Nat.le_refl _)])
    have heq := place_setAddr (x := BitVec.ofNat 32 s.freeblock) i hk h0' (by rwa [hx])
      fun _ => by rw [hx, h.zero _ (Nat.le_refl _)]
    rw [hx] at heq
    refine ⟨⟨⟨h.size, ?_, ?_, ?_⟩, hgrown, fun _ _ => rfl, rfl, ?_⟩, ?_, ?_, .inr ⟨h0', ?_, rfl⟩⟩
    · exact h.lo.trans (Nat.le_succ _)
    · intro b hb
      exact h.zero b (Nat.le_of_succ_le hb)
    · rw [hx, Ico_succ h.lo] at hlaid
      exact hlaid
    · intro j
      by_cases hj : j = i
      · rw [hj, update_self]
        rfl
      · rw [update_of_ne hj]
    · rwa [heq, if_pos rfl]
    · intro p _ hp
      rw [heq, if_neg hp]
    · rw [heq, if_pos rfl]

theorem mapEntry_spec (h : Mid s node) (hfb : s.freeblock ≤ FSSIZE + 1) (hi : i ∈ s.live)
    (hind : place s.blk node (i, NDIRECT) ≠ 0) (he : e < NINDIRECT)
    (hs : s.mapEntry (place s.blk node (i, NDIRECT)) e = some (s', x)) :
    Filled i (NDIRECT + 1 + e) s node s' node ∧ x = place s'.blk node (i, NDIRECT + 1 + e) := by
  obtain ⟨hx, hx0, hfresh⟩ := h.fresh hfb
  obtain ⟨hlo, hhi⟩ := h.laid.mem _ (indirect_mem hi) hind
  have hentry := place_entry i e hind
  simp only [State.mapEntry, Option.bind_eq_bind, Option.bind_eq_some_iff, rsect_eq_some h.size
    (show place s.blk node (i, NDIRECT) ≤ FSSIZE + 2 by omega)] at hs
  obtain ⟨_, ⟨hlt, rfl⟩, hs⟩ := hs
  split at hs
  case isFalse hne =>
    simp only [Option.pure_def, Option.some.injEq, Prod.mk.injEq] at hs
    obtain ⟨rfl, rfl⟩ := hs
    refine ⟨.of_ne h ?_, hentry.symm⟩
    rw [hentry]
    intro h0
    exact hne (BitVec.eq_of_toNat_eq h0)
  case isTrue h0 =>
    rw [h0] at hentry
    simp only [Option.pure_def, Option.some.injEq, Prod.mk.injEq] at hs
    obtain ⟨rfl, rfl⟩ := hs
    obtain ⟨hgrown, hlaid⟩ := Grown.setEntry (x := BitVec.ofNat 32 s.freeblock) h.laid hi hind he hentry (by rwa [hx])
      (by rwa [hx]) (by rw [hx, h.zero _ (Nat.le_refl _)])
    have heq := fun p hp => place_setEntry h.laid hi hind e (BitVec.ofNat 32 s.freeblock) (p := p) hp
    rw [hx] at heq
    have hself := (heq _ (entry_mem hi he)).trans (if_pos rfl)
    rw [wsect_eq (s := { s with freeblock := s.freeblock + 1 }) h.size hlt]
    refine ⟨⟨⟨⟨h.size, ?_, ?_, ?_⟩, hgrown, ?_, rfl, fun _ => rfl⟩, ?_, ?_, .inr ⟨hentry, ?_, rfl⟩⟩, ?_⟩
    · exact h.lo.trans (Nat.le_succ _)
    · intro b hb
      show update s.blk _ _ b = _
      rw [update_of_ne (by have : s.freeblock + 1 ≤ b := hb; omega)]
      exact h.zero b (Nat.le_of_succ_le hb)
    · rw [hx, Ico_succ h.lo] at hlaid
      exact hlaid
    · intro b hb
      exact update_of_ne (by omega) _ _
    · exact hself.trans_ne hx0
    · intro p hp hne
      exact (heq p hp).trans (if_neg hne)
    · exact hself
    · exact hx.trans hself.symm

/-- Block `fbn` of inode `i` has the block `x` now. -/
structure Mapped (i fbn : Nat) (s : State) (node : Nat → Dinode) (s' : State) (node' : Nat → Dinode) (x : Nat) : Prop
    extends Kept s node s' node' where
  addr : place s'.blk node' (i, slotOf fbn) = x
  ne : x ≠ 0
  mapped : ∀ p ∈ slots s.live, place s'.blk node' p ≠ 0 ↔
    place s.blk node p ≠ 0 ∨ p = (i, slotOf fbn) ∨ NDIRECT ≤ fbn ∧ p = (i, NDIRECT)
  le : s.freeblock ≤ s'.freeblock
  last : s'.freeblock ≤ max s.freeblock (x + 1)
  le_two : s'.freeblock ≤ s.freeblock + 2

theorem Filled.mapped (h : Filled i k s node s' node') {p : Nat × Nat} (hp : p ∈ slots s.live) :
    place s'.blk node' p ≠ 0 ↔ place s.blk node p ≠ 0 ∨ p = (i, k) := by
  by_cases hpk : p = (i, k)
  · simp [hpk, h.ne]
  · simp [h.other p hp hpk, hpk]

theorem Mapped.direct (h : Filled i fbn s node s' node') (hfbn : fbn < NDIRECT) :
    Mapped i fbn s node s' node' (place s'.blk node' (i, fbn)) := by
  have hslot : slotOf fbn = fbn := if_pos hfbn
  refine ⟨h.toKept, by rw [hslot], h.ne, ?_, ?_, ?_, ?_⟩
  · intro p hp
    rw [h.mapped hp, hslot]
    have : ¬ NDIRECT ≤ fbn := by omega
    simp [this]
  all_goals obtain ⟨-, h1⟩ | ⟨-, h1, h2⟩ := h.next <;> omega

theorem Mapped.indirect (h : Filled i NDIRECT s node s' node') (hi : i ∈ s.live) (he : e < NINDIRECT)
    (h' : Filled i (NDIRECT + 1 + e) s' node' s'' node'') :
    Mapped i (NDIRECT + e) s node s'' node'' (place s''.blk node'' (i, NDIRECT + 1 + e)) := by
  have hslot : slotOf (NDIRECT + e) = NDIRECT + 1 + e := by
    rw [slotOf, if_neg (by omega)]
    omega
  have hlive := live_congr h.freeinode
  have hsame := h.other _ (entry_mem hi he) (by simp; omega)
  refine ⟨h.toKept.trans h'.toKept, by rw [hslot], h'.ne, ?_, ?_, ?_, ?_⟩
  · intro p hp
    rw [h'.mapped (hlive ▸ hp), h.mapped hp, hslot]
    have : NDIRECT ≤ NDIRECT + e := by omega
    tauto
  all_goals
    obtain ⟨h0, h1⟩ | ⟨h0, h1, h2⟩ := h.next <;> obtain ⟨h0', h3⟩ | ⟨-, h3, h4⟩ := h'.next <;> try omega
  · -- a new indirect block has no entries
    rw [hsame, place_entry_zero i e h0] at h0'
    exact absurd rfl h0'

theorem place_mapAddr (s : State) (node : Nat → Dinode) (i : Nat) :
    place (s.mapAddr (node i) NDIRECT).1.blk (update node i (s.mapAddr (node i) NDIRECT).2) (i, NDIRECT) =
      ((s.mapAddr (node i) NDIRECT).2.addrs (Fin.last NDIRECT)).toNat := by
  rw [place_indirect, update_self]

theorem map_spec (h : Mid s node) (hfb : s.freeblock ≤ FSSIZE) (hi : i ∈ s.live) (hfbn : fbn < MAXFILE) {din : Dinode}
    (hs : s.map (node i) fbn = some (s', din, x)) : Mapped i fbn s node s' (update node i din) x := by
  rw [State.map] at hs
  split at hs
  case isTrue hlt =>
    have hfill := mapAddr_spec h (by omega) i (Nat.le_of_lt hlt)
    simp only [Option.some.injEq, Prod.mk.injEq] at hs
    obtain ⟨rfl, rfl, rfl⟩ := hs
    have := Mapped.direct hfill hlt
    rw [place_direct i (Nat.le_of_lt hlt), update_self] at this
    exact this
  case isFalse hge =>
    obtain ⟨e, rfl⟩ : ∃ e, fbn = NDIRECT + e := ⟨fbn - NDIRECT, by omega⟩
    have he : e < NINDIRECT := by simp only [MAXFILE] at hfbn; omega
    have hfill := mapAddr_spec h (by omega) i (Nat.le_refl NDIRECT)
    have hind := place_mapAddr s node i
    simp only [Option.bind_eq_bind, Option.bind_eq_some_iff, Option.pure_def, Option.some.injEq, Prod.mk.injEq,
      Nat.add_sub_cancel_left, Prod.exists, ← hind] at hs
    obtain ⟨_, _, hs, rfl, rfl, rfl⟩ := hs
    obtain ⟨hentry, rfl⟩ := mapEntry_spec hfill.mid (by obtain ⟨-, h1⟩ | ⟨-, -, h1⟩ := hfill.next <;> omega)
      (live_congr hfill.freeinode ▸ hi) hfill.ne he hs
    exact .indirect hfill hi he hentry

/-- With room for two blocks the map does not fail. -/
theorem map_some (h : Mid s node) (hfb : s.freeblock + 2 ≤ FSSIZE) (hi : i ∈ s.live) (fbn : Nat) :
    ∃ r, s.map (node i) fbn = some r := by
  rw [State.map]
  split
  · exact ⟨_, rfl⟩
  have hfill := mapAddr_spec h (by omega) i (Nat.le_refl NDIRECT)
  have hind := place_mapAddr s node i
  have hlt := (hfill.mid.laid.mem _ (indirect_mem (live_congr hfill.freeinode ▸ hi)) hfill.ne).2
  have hroom : (s.mapAddr (node i) NDIRECT).1.freeblock ≤ FSSIZE := by
    obtain ⟨-, h1⟩ | ⟨-, -, h1⟩ := hfill.next <;> omega
  rw [hind] at hlt
  simp only [State.mapEntry, rsect_eq hfill.mid.size (hlt.trans_le hroom), Option.bind_eq_bind, Option.bind_some]
  split <;> exact ⟨_, rfl⟩

/-! ## What is in the files -/

/-- How many blocks `n` bytes take. -/
def nblocksOf (n : Nat) : Nat := (n + 511) / 512

/-- The block of the file a slot is for; the indirect block is there as soon as its first entry is. -/
def blockOf (k : Nat) : Nat := if k ≤ NDIRECT then k else k - 1

/-- The inodes have `c` for contents. Their last blocks are filled up with zeros. -/
structure Holds (s : State) (node : Nat → Dinode) (c : Nat → List UInt8) : Prop where
  mapped : ∀ p ∈ slots s.live, place s.blk node p ≠ 0 ↔ blockOf p.2 < nblocksOf (c p.1).length
  bytes : ∀ i ∈ s.live, ∀ pos, pos / BSIZE < nblocksOf (c i).length → byteAt s.blk node i pos = (c i).getD pos 0
  fits : ∀ i ∈ s.live, (c i).length ≤ MAXFILE * BSIZE

theorem blockOf_slotOf (bn : Nat) : blockOf (slotOf bn) = bn := by
  rw [slotOf]
  split
  case isTrue h => exact if_pos (Nat.le_of_lt h)
  case isFalse h => rw [blockOf, if_neg (by omega), Nat.add_sub_cancel]

theorem blockOf_eq (k fbn : Nat) : blockOf k = fbn ↔ k = slotOf fbn ∨ NDIRECT ≤ fbn ∧ k = NDIRECT ∧ fbn = NDIRECT := by
  rw [blockOf, slotOf]
  have : NDIRECT = 12 := rfl
  split <;> split <;> omega

theorem Holds.mapped_iff {c : Nat → List UInt8} (h : Holds s node c) (hi : i ∈ s.live) {bn : Nat} (hbn : bn < MAXFILE) :
    place s.blk node (i, slotOf bn) ≠ 0 ↔ bn < nblocksOf (c i).length := by
  rw [h.mapped _ (slotOf_mem hi hbn), blockOf_slotOf]

theorem nblocksOf_le {n : Nat} (h : n ≤ MAXFILE * BSIZE) : nblocksOf n ≤ MAXFILE := by
  have : n ≤ 71680 := h
  show (n + 511) / 512 ≤ 140
  omega

variable {c : Nat → List UInt8} {p q : List UInt8} {din : Dinode} {n1 : Nat} {off : Nat}

/-- Bytes behind the map of a file are zero. -/
theorem Holds.getD_eq_zero (h : Holds s node c) (hi : i ∈ s.live) {pos : Nat} (hpos : pos / BSIZE < MAXFILE)
    (h0 : place s.blk node (i, slotOf (pos / BSIZE)) = 0) : (c i).getD pos 0 = 0 := by
  have hnot : ¬ pos / BSIZE < nblocksOf (c i).length := fun hlt => (h.mapped_iff hi hpos).2 hlt h0
  refine List.getD_eq_default _ _ ?_
  change ¬ pos / 512 < ((c i).length + 511) / 512 at hnot
  omega

/-- After the map of a file has grown, all the bytes of the old files are there. -/
theorem Holds.grown (h : Holds s node c) (hg : Grown s.live s.blk node s'.blk node') (hi : i ∈ s.live) {pos : Nat}
    (hpos : pos / BSIZE < MAXFILE) (hne : place s'.blk node' (i, slotOf (pos / BSIZE)) ≠ 0) :
    byteAt s'.blk node' i pos = (c i).getD pos 0 := by
  by_cases h0 : place s.blk node (i, slotOf (pos / BSIZE)) = 0
  · rw [hg.byteAt_new hi hpos h0 hne, h.getD_eq_zero hi hpos h0]
  · rw [hg.byteAt hi hpos h0, h.bytes i hi pos ((h.mapped_iff hi hpos).1 h0)]

/-- One turn appends the first bytes of `p`, up to the end of a block. -/
structure Turned (i : Nat) (s : State) (node : Nat → Dinode) (c : Nat → List UInt8) (s' : State) (node' : Nat → Dinode)
    (q : List UInt8) : Prop where
  mid : Mid s' node'
  holds : Holds s' node' (update c i (c i ++ q))
  frame : ∀ b < nmeta, s'.blk b = s.blk b
  freeinode : s'.freeinode = s.freeinode
  type : ∀ j, (node' j).type = (node j).type
  le : s.freeblock ≤ s'.freeblock
  hi : s'.freeblock ≤ FSSIZE

theorem nblocksOf_append (off : Nat) (hpos : 0 < n1) (hle : off + n1 ≤ (off / 512 + 1) * 512) :
    nblocksOf (off + n1) = off / 512 + 1 := by
  rw [nblocksOf]
  omega

/-- The slots of inode `i` that are needed for a block more. -/
theorem mapped_append (off : Nat) (hpos : 0 < n1) (hle : off + n1 ≤ (off / 512 + 1) * 512) :
    (blockOf k < nblocksOf off ∨ k = slotOf (off / 512) ∨ NDIRECT ≤ off / 512 ∧ k = NDIRECT) ↔
      blockOf k < nblocksOf (off + n1) := by
  rw [nblocksOf_append off hpos hle]
  have hcases := blockOf_eq k (off / 512)
  have hlo : off / 512 ≤ nblocksOf off ∧ nblocksOf off ≤ off / 512 + 1 := by
    rw [nblocksOf]
    omega
  constructor
  · rintro (h | rfl | ⟨h, rfl⟩)
    · omega
    · rw [blockOf_slotOf]
      omega
    · rw [blockOf, if_pos (Nat.le_refl _)]
      omega
  intro h
  by_cases hlt : blockOf k < off / 512
  · exact .inl (by omega)
  · obtain hk | ⟨hk, hk', -⟩ := hcases.1 (by omega)
    · exact .inr (.inl hk)
    · exact .inr (.inr ⟨hk, hk'⟩)

theorem Mid.setData (h : Mid s node) {p : Nat × Nat} (hp : p ∈ slots s.live)
    (hk : p.2 ≠ NDIRECT) (hne : place s.blk node p ≠ 0) (data : Block) :
    Mid (s.put (place s.blk node p) data) node ∧ ∀ b < nmeta, (s.put (place s.blk node p) data).blk b = s.blk b := by
  obtain ⟨hlo, hlt⟩ := h.laid.mem p hp hne
  refine ⟨⟨h.size, h.lo, ?_, h.laid.congr fun q hq => place_setData h.laid hp hk data hq⟩, ?_⟩
  · intro b hb
    have hb' : s.freeblock ≤ b := hb
    rw [← h.zero b hb']
    exact update_of_ne (by omega) _ _
  · intro b hb
    exact update_of_ne (by omega) _ _

theorem getD_append_window (a q : List UInt8) (pos : Nat) :
    (a ++ q).getD pos 0 = if a.length ≤ pos ∧ pos < a.length + q.length then q.getD (pos - a.length) 0
      else a.getD pos 0 := by
  by_cases hlt : pos < a.length
  · rw [if_neg (by omega), List.getD_append _ _ _ _ hlt]
  rw [List.getD_append_right _ _ _ _ (by omega)]
  split
  case isTrue => rfl
  case isFalse hnot =>
    rw [List.getD_eq_default _ _ (by omega), List.getD_eq_default _ _ (by omega)]

theorem Mapped.write (hc : Holds s node c) (hi : i ∈ s.live) (hfbn : (c i).length / BSIZE < MAXFILE)
    (hm : Mapped i ((c i).length / BSIZE) s node s' node' x) (hpos : 0 < q.length)
    (hle : (c i).length + q.length ≤ ((c i).length / BSIZE + 1) * BSIZE) :
    Holds (s'.put x (setBytes (s'.blk x) ((c i).length - (c i).length / BSIZE * BSIZE) q)) node'
      (update c i (c i ++ q)) := by
  have hlive : s'.live = s.live := live_congr hm.freeinode
  have hmem := slotOf_mem (L := s.live) hi hfbn
  have hlaid := hm.mid.laid
  rw [hlive] at hlaid
  have hplace : ∀ p ∈ slots s.live, place (update s'.blk x (setBytes (s'.blk x)
      ((c i).length - (c i).length / BSIZE * BSIZE) q)) node' p = place s'.blk node' p := by
    intro p hp
    rw [← hm.addr]
    exact place_setData hlaid hmem (slotOf_ne _) _ hp
  have hlen : (update c i (c i ++ q) i).length = (c i).length + q.length := by simp
  have hmapped : ∀ p ∈ slots s.live, place s'.blk node' p ≠ 0 ↔
      blockOf p.2 < nblocksOf (update c i (c i ++ q) p.1).length := by
    intro p hp
    rw [hm.mapped p hp, hc.mapped p hp]
    obtain ⟨j, k⟩ := p
    by_cases hj : j = i
    · subst hj
      simp only [hlen, Prod.mk.injEq, true_and]
      exact mapped_append _ hpos hle
    · simp [hj]
  have hfits : ∀ j ∈ s.live, (update c i (c i ++ q) j).length ≤ MAXFILE * BSIZE := by
    intro j hj
    by_cases hji : j = i
    · rw [hji, hlen]
      have hfbn' : (c i).length / 512 < 140 := hfbn
      have hle' : (c i).length + q.length ≤ ((c i).length / 512 + 1) * 512 := hle
      show _ ≤ 71680
      omega
    · rw [update_of_ne hji]
      exact hc.fits j hj
  refine ⟨?_, ?_, ?_⟩
  · intro p hp
    have hp' : p ∈ slots s.live := hlive ▸ hp
    rw [← hmapped p hp', ← hplace p hp']
    exact Iff.rfl
  · intro j hj pos hlt
    have hj' : j ∈ s.live := hlive ▸ hj
    have hbn : pos / BSIZE < MAXFILE := hlt.trans_le (nblocksOf_le (hfits j hj'))
    have hne : place s'.blk node' (j, slotOf (pos / BSIZE)) ≠ 0 := by
      rw [hmapped _ (slotOf_mem hj' hbn), blockOf_slotOf]
      exact hlt
    have hold := hc.grown hm.grown hj' hbn hne
    have hset := byteAt_setBytes hlaid hi hfbn ((c i).length - (c i).length / BSIZE * BSIZE) q hj' hbn hne
    rw [hm.addr] at hset
    refine hset.trans ?_
    rw [hold]
    by_cases hji : j = i
    · subst hji
      have hlt' : pos / 512 < nblocksOf (update c j (c j ++ q) j).length := hlt
      have hle' : (c j).length + q.length ≤ ((c j).length / 512 + 1) * 512 := hle
      rw [hlen, nblocksOf_append _ hpos hle'] at hlt'
      rw [update_self, getD_append_window]
      simp only [true_and]
      by_cases hin : (c j).length ≤ pos ∧ pos < (c j).length + q.length
      · rw [if_pos hin, if_pos (by simp only [BSIZE]; omega)]
        congr 1
        simp only [BSIZE]
        omega
      · rw [if_neg hin, if_neg (by simp only [BSIZE]; omega)]
    · rw [if_neg (by simp [hji]), update_of_ne hji]
  · intro j hj
    exact hfits j (hlive ▸ hj)

theorem turn_spec (h : Mid s node) (hc : Holds s node c) (hfb : s.freeblock ≤ FSSIZE) (hi : i ∈ s.live) (hp : p ≠ [])
    (hs : s.turn (node i) (c i).length p = some (s', din, n1)) :
    Turned i s node c s' (update node i din) (p.take n1) ∧ 0 < n1 ∧ n1 ≤ p.length ∧
      s'.freeblock ≤ s.freeblock + 2 := by
  rw [State.turn] at hs
  split at hs
  case isFalse => cases hs
  case isTrue hfbn =>
    simp only [Option.bind_eq_bind, Option.bind_eq_some_iff, Option.pure_def, Option.some.injEq, Prod.mk.injEq,
      Prod.exists] at hs
    obtain ⟨s1, din, x, hmap, buf, hbuf, rfl, rfl, rfl⟩ := hs
    have hm := map_spec h hfb hi hfbn hmap
    have hlen : 0 < p.length := List.length_pos_iff.2 hp
    have hroom : 0 < ((c i).length / 512 + 1) * 512 - (c i).length := by omega
    have hle_two := hm.le_two
    obtain ⟨-, hx⟩ := hm.mid.laid.mem _ (slotOf_mem (live_congr hm.freeinode ▸ hi) hfbn) (hm.addr.trans_ne hm.ne)
    rw [hm.addr] at hx
    obtain ⟨hxlt, rfl⟩ := (rsect_eq_some hm.mid.size (by omega)).1 hbuf
    rw [wsect_eq hm.mid.size hxlt]
    have hlast := hm.last
    have hle := hm.le
    obtain ⟨hmid, hframe⟩ := hm.mid.setData (slotOf_mem (live_congr hm.freeinode ▸ hi) hfbn) (slotOf_ne _)
      (hm.addr.trans_ne hm.ne) (setBytes (s1.blk x) ((c i).length - (c i).length / BSIZE * BSIZE)
        (p.take (min p.length (((c i).length / BSIZE + 1) * BSIZE - (c i).length))))
    rw [hm.addr] at hmid hframe
    refine ⟨⟨hmid, hm.write hc hi hfbn ?_ ?_, ?_, hm.freeinode, hm.type, hle, ?_⟩, ?_, ?_, hle_two⟩
    · rw [List.length_take]
      exact Nat.lt_min.2 ⟨Nat.lt_min.2 ⟨hlen, hroom⟩, hlen⟩
    · rw [List.length_take]
      simp only [BSIZE]
      omega
    · intro b hb
      exact (hframe b hb).trans (hm.frame b hb)
    · show s1.freeblock ≤ FSSIZE
      omega
    · exact Nat.lt_min.2 ⟨hlen, hroom⟩
    · exact Nat.min_le_left _ _

theorem turn_some (h : Mid s node) (hfb : s.freeblock + 2 ≤ FSSIZE) (hi : i ∈ s.live)
    (hoff : off / BSIZE < MAXFILE) (p : List UInt8) : ∃ r, s.turn (node i) off p = some r := by
  obtain ⟨⟨s1, din, x⟩, hmap⟩ := map_some h hfb hi (off / BSIZE)
  have hm := map_spec h (by omega) hi hoff hmap
  obtain ⟨-, hx⟩ := hm.mid.laid.mem _ (slotOf_mem (live_congr hm.freeinode ▸ hi) hoff) (hm.addr.trans_ne hm.ne)
  have hle_two := hm.le_two
  rw [hm.addr] at hx
  simp only [State.turn, if_pos hoff, hmap, Option.bind_eq_bind, Option.bind_some,
    rsect_eq hm.mid.size (show x < FSSIZE by omega)]
  exact ⟨_, rfl⟩

/-! ## The loop -/

theorem Turned.refl (h : Mid s node) (hc : Holds s node c) (hfb : s.freeblock ≤ FSSIZE) (i : Nat) :
    Turned i s node c s node [] where
  mid := h
  holds := by rwa [List.append_nil, update_eq_self]
  frame _ _ := rfl
  freeinode := rfl
  type _ := rfl
  le := Nat.le_refl _
  hi := hfb

theorem Turned.trans (h : Turned i s node c s' node' p)
    (h' : Turned i s' node' (update c i (c i ++ p)) s'' node'' q) : Turned i s node c s'' node'' (p ++ q) where
  mid := h'.mid
  holds := by simpa using h'.holds
  frame b hb := (h'.frame b hb).trans (h.frame b hb)
  freeinode := h'.freeinode.trans h.freeinode
  type j := (h'.type j).trans (h.type j)
  le := h.le.trans h'.le
  hi := h'.hi

theorem iappendLoop_spec : ∀ (fuel : Nat) {s s' : State} {node : Nat → Dinode} {c : Nat → List UInt8}
    {din : Dinode} {p : List UInt8} {off : Nat}, p.length ≤ fuel → Mid s node → Holds s node c → s.freeblock ≤ FSSIZE →
    i ∈ s.live → State.iappendLoop fuel s (node i) (c i).length p = some (s', din, off) →
    Turned i s node c s' (update node i din) p ∧ off = (c i).length + p.length
  | 0, s, s', node, c, din, p, off, hp, h, hc, hfb, hi, hs => by
    simp only [State.iappendLoop, Option.some.injEq, Prod.mk.injEq] at hs
    obtain ⟨rfl, rfl, rfl⟩ := hs
    rw [List.length_eq_zero_iff.1 (Nat.le_zero.1 hp), update_eq_self]
    exact ⟨.refl h hc hfb i, rfl⟩
  | fuel + 1, s, s', node, c, din, p, off, hp, h, hc, hfb, hi, hs => by
    rw [State.iappendLoop] at hs
    split at hs
    case isTrue hnil =>
      simp only [Option.some.injEq, Prod.mk.injEq] at hs
      obtain ⟨rfl, rfl, rfl⟩ := hs
      rw [hnil, update_eq_self]
      exact ⟨.refl h hc hfb i, rfl⟩
    case isFalse hnil =>
      simp only [Option.bind_eq_bind, Option.bind_eq_some_iff, Prod.exists] at hs
      obtain ⟨s1, din1, n1, hturn, hs⟩ := hs
      obtain ⟨ht, hpos, hle, -⟩ := turn_spec h hc hfb hi hnil hturn
      have hlen : (c i).length + n1 = (update c i (c i ++ p.take n1) i).length := by simp [hle]
      rw [hlen, ← update_self i din1 node] at hs
      have hrest := iappendLoop_spec fuel (by rw [List.length_drop]; omega) ht.mid ht.holds ht.hi
        (live_congr ht.freeinode ▸ hi) hs
      rw [update_idem] at hrest
      refine ⟨?_, ?_⟩
      · have := ht.trans hrest.1
        rwa [List.take_append_drop] at this
      · rw [hrest.2, ← hlen, List.length_drop]
        omega

/-- How many blocks `len` bytes from `off` on touch, which is how often the loop turns. -/
def turns (off len : Nat) : Nat := if len = 0 then 0 else nblocksOf (off % 512 + len)

theorem turns_turn (off : Nat) {len n1 : Nat} (hlen : len ≠ 0) (hn1 : n1 = min len ((off / 512 + 1) * 512 - off)) :
    turns (off + n1) (len - n1) + 1 ≤ turns off len := by
  rw [turns, turns, if_neg hlen]
  split <;> simp only [nblocksOf] <;> omega

theorem turn_eq_some (hs : s.turn (node i) off p = some (s', din, n1)) :
    n1 = min p.length ((off / 512 + 1) * 512 - off) := by
  rw [State.turn] at hs
  split at hs
  case isFalse => cases hs
  case isTrue hfbn =>
    simp only [Option.bind_eq_bind, Option.bind_eq_some_iff, Option.pure_def, Option.some.injEq, Prod.mk.injEq,
      Prod.exists] at hs
    obtain ⟨_, _, _, _, _, _, _, _, h⟩ := hs
    exact h.symm

theorem iappendLoop_some : ∀ (fuel : Nat) {s : State} {node : Nat → Dinode} {c : Nat → List UInt8} {p : List UInt8},
    Mid s node → Holds s node c → i ∈ s.live → (c i).length + p.length ≤ MAXFILE * BSIZE →
    s.freeblock + 2 * turns (c i).length p.length ≤ FSSIZE →
    ∃ r, State.iappendLoop fuel s (node i) (c i).length p = some r ∧
      r.1.freeblock ≤ s.freeblock + 2 * turns (c i).length p.length
  | 0, s, node, c, p, _, _, _, _, _ => ⟨_, rfl, Nat.le_add_right _ _⟩
  | fuel + 1, s, node, c, p, h, hc, hi, hfits, hroom => by
    rw [State.iappendLoop]
    split
    case isTrue => exact ⟨_, rfl, Nat.le_add_right _ _⟩
    case isFalse hnil =>
      have hlen : p.length ≠ 0 := fun h0 => hnil (List.length_eq_zero_iff.1 h0)
      have hoff : (c i).length / BSIZE < MAXFILE := by
        have : (c i).length + p.length ≤ 71680 := hfits
        show (c i).length / 512 < 140
        omega
      have hone := turns_turn (c i).length hlen rfl
      obtain ⟨⟨s1, din, n1⟩, hturn⟩ := turn_some h (by omega) hi hoff p
      obtain ⟨ht, hpos, hle, htwo⟩ := turn_spec h hc (by omega) hi hnil hturn
      rw [← turn_eq_some hturn] at hone
      have hlen' : (c i).length + n1 = (update c i (c i ++ p.take n1) i).length := by simp [hle]
      have ih := iappendLoop_some fuel (p := p.drop n1) ht.mid ht.holds (live_congr ht.freeinode ▸ hi)
        (by rw [← hlen', List.length_drop]; omega) (by rw [← hlen', List.length_drop]; omega)
      rw [← hlen', update_self, List.length_drop] at ih
      obtain ⟨r, hr, hfb⟩ := ih
      refine ⟨r, ?_, by omega⟩
      simp only [hturn, Option.bind_eq_bind, Option.bind_some, hr]

end Xv6.Mkfs
