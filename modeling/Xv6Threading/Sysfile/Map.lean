import Xv6Threading.Lib.Placement
import Xv6Threading.Sysfile.Blocks

/-!
# The blocks of files (`fs.h:29-57`, `fs.c:362-400`)

What is written to a block is read back, and the rest of the block stays. On top of that, the map from the blocks of a
file to blocks of the disk, and what filling one of its slots does.

| here | there |
| --- | --- |
| `slotAddr blk d k` | a number of a block: `addrs[k]`, and for `k` above 12 the entries of the indirect block |
| `slotOf bn` | the slot of block `bn` of a file; 12 is that of the indirect block itself |
| `blockAddr` | the number for block `bn` of a file |
| `place` | the same for an inode and a slot, given all inodes |
| `slots L` | the slots of the inodes of `L` |
| `byteAt` | a byte of a file |
-/

namespace Xv6.Sysfile

open Function

variable {b : Block} {d d' : Dinode} {i j e : Nat}

/-! ## Reading what is written -/

theorem ofNat_mod_256 (w : Nat) (v : BitVec (8 * w)) : BitVec.ofNat (8 * w) (v.toNat % 256 ^ w) = v := by
  have hpow : 256 ^ w = 2 ^ (8 * w) := by rw [Nat.pow_mul]
  rw [hpow, Nat.mod_eq_of_lt v.isLt, BitVec.ofNat_toNat, BitVec.setWidth_eq]

/-- A name is cut to `DIRSIZ` bytes and read up to the first NUL. -/
theorem Dirent.ofBytes_bytes (inum : BitVec 16) {name : List UInt8} (h : 0 ∉ name) :
    Dirent.ofBytes (Dirent.bytes ⟨inum, name⟩) = ⟨inum, name.take Fs.DIRSIZ⟩ := by
  have hget : Codec.get ((Dirent.bytes ⟨inum, name⟩).getD · 0) 0 2 = inum.toNat % 256 ^ 2 := by
    refine Codec.get_of_bytes fun j hj => ?_
    match j, hj with
    | 0, _ => rfl
    | 1, _ => rfl
  have hname : ((name ++ List.replicate Fs.DIRSIZ 0).take Fs.DIRSIZ).takeWhile (· ≠ 0) = name.take Fs.DIRSIZ := by
    rw [List.take_append, List.takeWhile_append_of_pos, List.take_replicate, List.takeWhile_replicate]
    · simp
    intro x hx
    simp only [ne_eq, decide_not, Bool.not_eq_true', decide_eq_false_iff_not]
    rintro rfl
    exact h (List.mem_of_mem_take hx)
  rw [Dirent.ofBytes, hget, ofNat_mod_256 2]
  simp only [Dirent.bytes, Dirent.mk.injEq, true_and]
  rw [List.drop_append, ← hname]
  simp [List.take_take]

/-- A field of `w` bytes at `off` in the record. -/
theorem get_setDinode (b : Block) (i : Nat) (d : Dinode) (off : Nat) {w v : Nat} (hoff : off + w ≤ 64)
    (hbyte : ∀ j < w, d.byte (off + j) = Codec.byteOf v j) :
    Codec.get (setDinode b i d) (64 * i + off) w = v % 256 ^ w := by
  refine Codec.get_of_bytes fun j hj => ?_
  rw [setDinode, if_pos (by omega), ← hbyte j hj, Nat.add_assoc, Nat.add_sub_cancel_left]

theorem dinodeAt_setDinode (b : Block) (i : Nat) (d : Dinode) : dinodeAt (setDinode b i d) i = d := by
  obtain ⟨type, major, minor, nlink, size, addrs⟩ := d
  simp only [dinodeAt, Dinode.mk.injEq]
  refine ⟨?_, ?_, ?_, ?_, ?_, funext fun j => ?_⟩
  · rw [← Nat.add_zero (64 * i), get_setDinode b i _ 0 (v := type.toNat) (by omega), ofNat_mod_256 2]
    intro j hj
    simp [Dinode.byte, hj]
  · rw [get_setDinode b i _ 2 (v := major.toNat) (by omega), ofNat_mod_256 2]
    intro j hj
    rw [Dinode.byte, if_neg (by omega), if_pos (by omega), Nat.add_sub_cancel_left]
  · rw [get_setDinode b i _ 4 (v := minor.toNat) (by omega), ofNat_mod_256 2]
    intro j hj
    rw [Dinode.byte, if_neg (by omega), if_neg (by omega), if_pos (by omega), Nat.add_sub_cancel_left]
  · rw [get_setDinode b i _ 6 (v := nlink.toNat) (by omega), ofNat_mod_256 2]
    intro j hj
    rw [Dinode.byte, if_neg (by omega), if_neg (by omega), if_neg (by omega), if_pos (by omega),
      Nat.add_sub_cancel_left]
  · rw [get_setDinode b i _ 8 (v := size.toNat) (by omega), ofNat_mod_256 4]
    intro j hj
    rw [Dinode.byte, if_neg (by omega), if_neg (by omega), if_neg (by omega), if_neg (by omega), if_pos (by omega),
      Nat.add_sub_cancel_left]
  have hj : j.val < 13 := j.isLt
  rw [Nat.add_assoc, get_setDinode b i _ (12 + 4 * j) (v := (addrs j).toNat) (by omega), ofNat_mod_256 4]
  intro k hk
  have h1 : (12 + 4 * j.val + k - 12) / 4 = j.val := by omega
  have h2 : (12 + 4 * j.val + k - 12) % 4 = k := by omega
  rw [Dinode.byte, if_neg (by omega), if_neg (by omega), if_neg (by omega), if_neg (by omega), if_neg (by omega), h1, h2]
  rw [show Fin.ofNat (NDIRECT + 1) j.val = j from Fin.ext (Nat.mod_eq_of_lt hj)]

theorem get_setDinode_of_ne (h : j ≠ i) (off w : Nat) (hoff : off + w ≤ 64) :
    Codec.get (setDinode b i d) (64 * j + off) w = Codec.get b (64 * j + off) w := by
  refine Codec.get_congr fun k hk => ?_
  rw [setDinode, if_neg (by omega)]

theorem dinodeAt_setDinode_of_ne (h : j ≠ i) : dinodeAt (setDinode b i d) j = dinodeAt b j := by
  simp only [dinodeAt, Dinode.mk.injEq]
  refine ⟨?_, ?_, ?_, ?_, ?_, funext fun k => ?_⟩
  · rw [← Nat.add_zero (64 * j), get_setDinode_of_ne h 0 2 (by omega)]
  · rw [get_setDinode_of_ne h 2 2 (by omega)]
  · rw [get_setDinode_of_ne h 4 2 (by omega)]
  · rw [get_setDinode_of_ne h 6 2 (by omega)]
  · rw [get_setDinode_of_ne h 8 4 (by omega)]
  · have hk : k.val < 13 := k.isLt
    rw [Nat.add_assoc, get_setDinode_of_ne h (12 + 4 * k) 4 (by omega)]

theorem uintAt_setUint (b : Block) (e : Nat) (v : BitVec 32) : uintAt (setUint b e v) e = v := by
  rw [uintAt, setUint, Codec.get_store_self, ofNat_mod_256 4]

theorem uintAt_setUint_of_ne (h : j ≠ e) (v : BitVec 32) : uintAt (setUint b e v) j = uintAt b j := by
  rw [uintAt, setUint, Codec.get_store_of_disjoint (by omega), uintAt]

theorem uintAt_zero (e : Nat) : uintAt (fun _ => 0) e = 0 := by
  simp [uintAt, Codec.get]

/-! ## Slots -/

abbrev NSLOT : Nat := NDIRECT + 1 + NINDIRECT

def slotAddr (blk : Nat → Block) (d : Dinode) (k : Nat) : Nat :=
  if k ≤ NDIRECT then (d.addrs (Fin.ofNat _ k)).toNat
  else if d.addrs (Fin.last NDIRECT) = 0 then 0
  else (uintAt (blk (d.addrs (Fin.last NDIRECT)).toNat) (k - (NDIRECT + 1))).toNat

def slotOf (bn : Nat) : Nat := if bn < NDIRECT then bn else bn + 1

/-- The block of the disk for a block of the file, 0 if there is none. -/
def blockAddr (blk : Nat → Block) (d : Dinode) (bn : Nat) : Nat :=
  if bn < MAXFILE then slotAddr blk d (slotOf bn) else 0

/-- Where slot `p.2` of inode `p.1` says its block is. -/
def place (blk : Nat → Block) (node : Nat → Dinode) (p : Nat × Nat) : Nat := slotAddr blk (node p.1) p.2

def slots (L : Set Nat) : Set (Nat × Nat) := { p | p.1 ∈ L ∧ p.2 < NSLOT }

variable {blk blk' blk'' : Nat → Block} {node node' node'' : Nat → Dinode} {L U : Set Nat} {p : Nat × Nat}
  {k : Nat} {x : BitVec 32}

theorem indirect_mem (hi : i ∈ L) : (i, NDIRECT) ∈ slots L := ⟨hi, by show NDIRECT < NSLOT; decide⟩

theorem entry_mem (hi : i ∈ L) (he : e < NINDIRECT) : (i, NDIRECT + 1 + e) ∈ slots L :=
  ⟨hi, Nat.add_lt_add_left he _⟩

theorem place_direct (i : Nat) (hk : k ≤ NDIRECT) :
    place blk node (i, k) = ((node i).addrs (Fin.ofNat _ k)).toNat := if_pos hk

theorem place_indirect (i : Nat) : place blk node (i, NDIRECT) = ((node i).addrs (Fin.last NDIRECT)).toNat := rfl

theorem place_entry (i e : Nat) (hind : place blk node (i, NDIRECT) ≠ 0) : place blk node (i, NDIRECT + 1 + e) =
    (uintAt (blk (place blk node (i, NDIRECT))) e).toNat := by
  rw [place, slotAddr, if_neg (by show ¬ NDIRECT + 1 + e ≤ NDIRECT; omega), if_neg, Nat.add_sub_cancel_left]
  · rfl
  · intro h0
    rw [place_indirect, h0] at hind
    exact hind rfl

theorem place_entry_zero (i e : Nat) (hind : place blk node (i, NDIRECT) = 0) :
    place blk node (i, NDIRECT + 1 + e) = 0 := by
  rw [place_indirect] at hind
  rw [place, slotAddr, if_neg (by show ¬ NDIRECT + 1 + e ≤ NDIRECT; omega), if_pos (BitVec.eq_of_toNat_eq hind)]

theorem slot_cases (k : Nat) : k ≤ NDIRECT ∨ ∃ e, k = NDIRECT + 1 + e := by
  by_cases hk : k ≤ NDIRECT
  · exact .inl hk
  · exact .inr ⟨k - (NDIRECT + 1), by omega⟩

/-- Only the addresses and the indirect block matter. -/
theorem place_congr (haddrs : (node' p.1).addrs = (node p.1).addrs) (hind : place blk node (p.1, NDIRECT) ≠ 0 →
      blk' (place blk node (p.1, NDIRECT)) = blk (place blk node (p.1, NDIRECT))) :
    place blk' node' p = place blk node p := by
  obtain ⟨i, k⟩ := p
  have hsame : place blk' node' (i, NDIRECT) = place blk node (i, NDIRECT) := by
    rw [place_indirect, place_indirect, haddrs]
  obtain hk | ⟨e, rfl⟩ := slot_cases k
  · rw [place_direct i hk, place_direct i hk, haddrs]
  · by_cases h0 : place blk node (i, NDIRECT) = 0
    · rw [place_entry_zero i e h0, place_entry_zero i e (hsame.trans h0)]
    · rw [place_entry i e h0, place_entry i e (hsame ▸ h0), hsame, hind h0]

/-! ## Changing the map -/

/-- `addrs[k] = x`. -/
def Dinode.setAddr (d : Dinode) (k : Fin (NDIRECT + 1)) (x : BitVec 32) : Dinode :=
  { d with addrs := update d.addrs k x }

/-- From one state to another slots are filled, with zeroed blocks for data, and nothing else of the files changes. -/
structure Grown (L : Set Nat) (blk : Nat → Block) (node : Nat → Dinode) (blk' : Nat → Block) (node' : Nat → Dinode) :
    Prop where
  keep : ∀ p ∈ slots L, place blk node p ≠ 0 → place blk' node' p = place blk node p
  data : ∀ p ∈ slots L, p.2 ≠ NDIRECT → place blk node p ≠ 0 → blk' (place blk node p) = blk (place blk node p)
  zero : ∀ p ∈ slots L, p.2 ≠ NDIRECT → place blk node p = 0 → place blk' node' p ≠ 0 →
    blk' (place blk' node' p) = fun _ => 0

theorem Grown.refl (L : Set Nat) (blk : Nat → Block) (node : Nat → Dinode) : Grown L blk node blk node :=
  ⟨fun _ _ _ => rfl, fun _ _ _ _ => rfl, fun _ _ _ h0 hne => absurd h0 hne⟩

theorem Grown.trans (h : Grown L blk node blk' node') (h' : Grown L blk' node' blk'' node'') :
    Grown L blk node blk'' node'' := by
  refine ⟨?_, ?_, ?_⟩
  · intro p hp hne
    have hkeep := h.keep p hp hne
    rw [h'.keep p hp (hkeep ▸ hne), hkeep]
  · intro p hp hk hne
    have hkeep := h.keep p hp hne
    have hdata := h'.data p hp hk (hkeep ▸ hne)
    rw [hkeep] at hdata
    rw [hdata, h.data p hp hk hne]
  · intro p hp hk h0 hne
    by_cases hmid : place blk' node' p = 0
    · exact h'.zero p hp hk hmid hne
    · rw [h'.keep p hp hmid, h'.data p hp hk hmid, h.zero p hp hk h0 hmid]

theorem ofNat_slot (hk : k ≤ NDIRECT) : (Fin.ofNat (NDIRECT + 1) k).val = k := Nat.mod_eq_of_lt (by omega)

/-- A slot of the inode itself is filled. -/
theorem place_setAddr (i : Nat) (hk : k ≤ NDIRECT) (h0 : place blk node (i, k) = 0) (hx : x.toNat ≠ 0)
    (hzero : k = NDIRECT → blk x.toNat = fun _ => 0) (p : Nat × Nat) :
    place blk (update node i ((node i).setAddr (Fin.ofNat _ k) x)) p =
      if p = (i, k) then x.toNat else place blk node p := by
  obtain ⟨j, l⟩ := p
  by_cases hj : j = i
  case neg =>
    rw [if_neg (by simp [hj])]
    exact place_congr (by simp [update_of_ne hj]) fun _ => rfl
  subst hj
  have hdirect : ∀ l ≤ NDIRECT, place blk (update node j ((node j).setAddr (Fin.ofNat _ k) x)) (j, l) =
      if l = k then x.toNat else place blk node (j, l) := by
    intro l hl
    rw [place_direct j hl, place_direct j hl, update_self]
    show (update (node j).addrs _ x _).toNat = _
    by_cases hlk : l = k
    · rw [if_pos hlk, hlk, update_self]
    · rw [if_neg hlk, update_of_ne]
      intro heq
      exact hlk (by rw [← ofNat_slot hl, heq, ofNat_slot hk])
  have hind := hdirect NDIRECT (Nat.le_refl _)
  obtain hl | ⟨e, rfl⟩ := slot_cases l
  · rw [hdirect l hl]
    simp
  rw [if_neg (by simp; omega)]
  by_cases hk12 : NDIRECT = k
  · -- the entries of the new indirect block are all 0
    rw [if_pos hk12] at hind
    rw [place_entry j e (hind ▸ hx), hind, hzero hk12.symm, uintAt_zero, place_entry_zero j e (hk12 ▸ h0)]
    rfl
  rw [if_neg hk12] at hind
  by_cases hold : place blk node (j, NDIRECT) = 0
  · rw [place_entry_zero j e (hind.trans hold), place_entry_zero j e hold]
  · rw [place_entry j e (hind.trans_ne hold), place_entry j e hold, hind]

section

variable (hlaid : Placement (place blk node) (slots L) U)
include hlaid

/-- An entry of the indirect block is filled. -/
theorem place_setEntry (hi : i ∈ L)
    (hind : place blk node (i, NDIRECT) ≠ 0) (e : Nat) (x : BitVec 32) (hp : p ∈ slots L) :
    place (update blk (place blk node (i, NDIRECT)) (setUint (blk (place blk node (i, NDIRECT))) e x)) node p =
      if p = (i, NDIRECT + 1 + e) then x.toNat else place blk node p := by
  obtain ⟨j, l⟩ := p
  by_cases hj : j = i
  case neg =>
    rw [if_neg (by simp [hj])]
    refine place_congr rfl fun h0 => update_of_ne ?_ _ _
    intro heq
    exact hj (congrArg Prod.fst (hlaid.inj _ (indirect_mem hp.1) _ (indirect_mem hi) h0 heq))
  subst hj
  obtain hl | ⟨l, rfl⟩ := slot_cases l
  · rw [place_direct j hl, place_direct j hl, if_neg (by simp; omega)]
  rw [place_entry j l hind, place_entry j l (by exact hind)]
  show BitVec.toNat (uintAt (update blk _ _ (place blk node (j, NDIRECT))) l) = _
  rw [update_self]
  by_cases hle : l = e
  · rw [hle, if_pos rfl, uintAt_setUint]
  · rw [if_neg (by simp [hle]), uintAt_setUint_of_ne hle]

/-- What is written to a block of data leaves the map as it is. -/
theorem place_setData {q : Nat × Nat} (hq : q ∈ slots L) (hk : q.2 ≠ NDIRECT) (data : Block) (hp : p ∈ slots L) :
    place (update blk (place blk node q) data) node p = place blk node p := by
  refine place_congr rfl fun h0 => update_of_ne ?_ _ _
  intro heq
  exact hk (congrArg Prod.snd (hlaid.inj _ (indirect_mem hp.1) q hq h0 heq)).symm

/-- A slot is filled with a block that was not in use. -/
theorem Grown.setAddr (hk : k ≤ NDIRECT)
    (h0 : place blk node (i, k) = 0) (hx : x.toNat ≠ 0) (hfresh : x.toNat ∉ U) (hzero : blk x.toNat = fun _ => 0) :
    let node' := update node i ((node i).setAddr (Fin.ofNat _ k) x)
    Grown L blk node blk node' ∧ Placement (place blk node') (slots L) (insert x.toNat U) := by
  have heq := place_setAddr i hk h0 hx fun _ => hzero
  refine ⟨⟨?_, fun _ _ _ _ => rfl, ?_⟩, ?_⟩
  · intro p _ hne
    rw [heq, if_neg]
    rintro rfl
    exact hne h0
  · intro p _ _ hp0 hne
    rw [heq] at hne ⊢
    split at hne
    case isTrue h => rw [if_pos h, hzero]
    case isFalse h => exact absurd hp0 hne
  · refine hlaid.put (Set.subset_insert _ _) (Set.mem_insert _ _) hfresh hx (p := (i, k)) ?_ fun q _ hq => ?_
    · rw [heq, if_pos rfl]
    · rw [heq, if_neg hq]

theorem Grown.setEntry (hi : i ∈ L)
    (hind : place blk node (i, NDIRECT) ≠ 0) (he : e < NINDIRECT) (h0 : place blk node (i, NDIRECT + 1 + e) = 0)
    (hx : x.toNat ≠ 0) (hfresh : x.toNat ∉ U) (hzero : blk x.toNat = fun _ => 0) :
    let ind := place blk node (i, NDIRECT)
    let blk' := update blk ind (setUint (blk ind) e x)
    Grown L blk node blk' node ∧ Placement (place blk' node) (slots L) (insert x.toNat U) := by
  have heq := fun p hp => place_setEntry hlaid hi hind e x (p := p) hp
  have hmem := indirect_mem hi
  refine ⟨⟨?_, ?_, ?_⟩, ?_⟩
  · intro p hp hne
    rw [heq p hp, if_neg]
    rintro rfl
    exact hne h0
  · intro p hp hk hne
    refine update_of_ne ?_ _ _
    intro heq'
    exact hk (congrArg Prod.snd (hlaid.inj p hp _ hmem hne heq'))
  · intro p hp hk hp0 hne
    rw [heq p hp] at hne ⊢
    split at hne
    case isFalse h => exact absurd hp0 hne
    case isTrue h =>
      rw [if_pos h, update_of_ne, hzero]
      intro heq'
      exact hfresh (heq' ▸ hlaid.mem _ hmem hind)
  · refine hlaid.put (Set.subset_insert _ _) (Set.mem_insert _ _) hfresh hx (p := (i, NDIRECT + 1 + e)) ?_ fun q hq hne => ?_
    · rw [heq _ (entry_mem hi he), if_pos rfl]
    · rw [heq q hq, if_neg hne]

end

/-! ## The bytes of a file -/

def byteAt (blk : Nat → Block) (node : Nat → Dinode) (i pos : Nat) : UInt8 :=
  blk (place blk node (i, slotOf (pos / BSIZE))) (pos % BSIZE)

theorem slotOf_ne (bn : Nat) : slotOf bn ≠ NDIRECT := by
  rw [slotOf]
  split <;> omega

theorem slotOf_mem {i bn : Nat} (hi : i ∈ L) (hbn : bn < MAXFILE) : (i, slotOf bn) ∈ slots L := by
  refine ⟨hi, ?_⟩
  show slotOf bn < 141
  have : bn < 140 := hbn
  rw [slotOf]
  split <;> omega

theorem slotOf_inj {bn bn' : Nat} (h : slotOf bn = slotOf bn') : bn = bn' := by
  rw [slotOf, slotOf] at h
  split at h <;> split at h <;> omega

/-- The bytes of a file stay where its map has grown. -/
theorem Grown.byteAt (h : Grown L blk node blk' node') {i pos : Nat} (hi : i ∈ L) (hpos : pos / BSIZE < MAXFILE)
    (hne : place blk node (i, slotOf (pos / BSIZE)) ≠ 0) : byteAt blk' node' i pos = byteAt blk node i pos := by
  have hmem := slotOf_mem hi hpos
  rw [Sysfile.byteAt, h.keep _ hmem hne, h.data _ hmem (slotOf_ne _) hne, Sysfile.byteAt]

theorem Grown.byteAt_new (h : Grown L blk node blk' node') {i pos : Nat} (hi : i ∈ L) (hpos : pos / BSIZE < MAXFILE)
    (h0 : place blk node (i, slotOf (pos / BSIZE)) = 0) (hne : place blk' node' (i, slotOf (pos / BSIZE)) ≠ 0) :
    Sysfile.byteAt blk' node' i pos = 0 := by
  rw [Sysfile.byteAt, h.zero _ (slotOf_mem hi hpos) (slotOf_ne _) h0 hne]

/-- Bytes are written into block `bn` of inode `i`, and no other byte of any file changes. -/
theorem byteAt_setBytes (hlaid : Placement (place blk node) (slots L) U) {i bn : Nat} (hi : i ∈ L) (hbn : bn < MAXFILE)
    (off : Nat) (src : List UInt8) {j pos : Nat} (hj : j ∈ L)
    (hpos : pos / BSIZE < MAXFILE) (hmapped : place blk node (j, slotOf (pos / BSIZE)) ≠ 0) :
    let b := place blk node (i, slotOf bn)
    byteAt (update blk b (setBytes (blk b) off src)) node j pos =
      if j = i ∧ pos / BSIZE = bn ∧ off ≤ pos % BSIZE ∧ pos % BSIZE < off + src.length
      then src.getD (pos % BSIZE - off) 0 else byteAt blk node j pos := by
  intro b
  have hmem := slotOf_mem hi hbn
  unfold byteAt
  rw [place_setData hlaid hmem (slotOf_ne bn) _ (slotOf_mem hj hpos)]
  by_cases hsame : j = i ∧ pos / BSIZE = bn
  · obtain ⟨rfl, rfl⟩ := hsame
    rw [update_self, setBytes]
    simp only [true_and]
    rfl
  rw [update_of_ne, if_neg]
  · rintro ⟨h1, h2, -⟩
    exact hsame ⟨h1, h2⟩
  · intro heq
    have := hlaid.inj _ (slotOf_mem hj hpos) _ hmem hmapped heq
    simp only [Prod.mk.injEq] at this
    exact hsame ⟨this.1, slotOf_inj this.2⟩

end Xv6.Sysfile
