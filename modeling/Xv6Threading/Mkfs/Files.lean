import Xv6Threading.Mkfs.Layout

/-!
# The files of the image (`mkfs.c:67-171`, `mkfs.c:183-234`)

`Ok s c`: inode `i` has `c i` for contents, on the disk and not only in `iappend`. It holds from the first inode on, as
long as the inodes are in the inode blocks. `contents files` is what the inodes have in the end.
-/

namespace Xv6.Mkfs

open Function
open Sysfile

variable {s s' : State} {c c' : Nat → List UInt8} {d : Dinode} {i j : Nat} {p : List UInt8} {files : List File}
  {r : State} {f : File}

/-- How many inodes the inode blocks have room for. -/
abbrev inodesMax : Nat := ninodeblocks * IPB

/-- Inode `i` on the disk. -/
def nodeAt (s : State) (i : Nat) : Dinode := dinodeAt (s.blk (IBLOCK sb i)) (i % IPB)

structure Ok (s : State) (c : Nat → List UInt8) : Prop where
  mid : Mid s (nodeAt s)
  holds : Holds s (nodeAt s) c
  blocks : s.freeblock ≤ FSSIZE
  inodes : s.freeinode ≤ inodesMax
  size : ∀ i ∈ s.live, (nodeAt s i).size.toNat = (c i).length
  type : ∀ i ∈ s.live, (nodeAt s i).type = if i = ROOTINO then T_DIR else T_FILE

/-! ## Inodes -/

theorem iblock_lt (hi : i < inodesMax) : sb.inodestart ≤ IBLOCK sb i ∧ IBLOCK sb i < sb.bmapstart := by
  have : i < 208 := hi
  show 32 ≤ i / 8 + 32 ∧ i / 8 + 32 < 58
  omega

theorem rinode_eq (hsize : s.size = FSSIZE) (hi : i < inodesMax) : s.rinode i = some (nodeAt s i) := by
  have hlt : IBLOCK sb i < FSSIZE := (iblock_lt hi).2.trans (by decide)
  simp only [State.rinode, rsect_eq hsize hlt, Option.bind_eq_bind, Option.bind_some, Option.pure_def, nodeAt]

/-- The inode as `winode` leaves it. -/
def State.putNode (s : State) (i : Nat) (d : Dinode) : State :=
  s.put (IBLOCK sb i) (setDinode (s.blk (IBLOCK sb i)) (i % IPB) d)

theorem winode_eq (hsize : s.size = FSSIZE) (hi : i < inodesMax) : s.winode i d = some (s.putNode i d) := by
  have hlt : IBLOCK sb i < FSSIZE := (iblock_lt hi).2.trans (by decide)
  simp only [State.winode, rsect_eq hsize hlt, Option.bind_eq_bind, Option.bind_some, Option.pure_def,
    wsect_eq hsize hlt, State.putNode]

theorem nodeAt_putNode (s : State) (i : Nat) (d : Dinode) : nodeAt (s.putNode i d) = update (nodeAt s) i d := by
  funext j
  by_cases hj : j = i
  · rw [hj, update_self, nodeAt, State.putNode, put_self, dinodeAt_setDinode]
  rw [update_of_ne hj, nodeAt, State.putNode]
  by_cases hb : IBLOCK sb j = IBLOCK sb i
  · have hmod : j % IPB ≠ i % IPB := by
      have : j / 8 + 32 = i / 8 + 32 := hb
      show j % 8 ≠ i % 8
      omega
    rw [hb, put_self, dinodeAt_setDinode_of_ne hmod, ← hb, nodeAt]
  · rw [put_of_ne hb, nodeAt]

theorem iblock_lt_nmeta (hi : i < inodesMax) : IBLOCK sb i < nmeta := (iblock_lt hi).2.trans (by decide)

theorem putNode_frame (hi : i < inodesMax) {b : Nat} (hb : b < sb.inodestart ∨ sb.bmapstart ≤ b) :
    (s.putNode i d).blk b = s.blk b := by
  have := iblock_lt hi
  exact put_of_ne (by omega) _

section Low

variable {node node' : Nat → Dinode} {b : Nat} {data : Block}

/-- Only the addresses of an inode matter for where its blocks are, and the first blocks hold no data. -/
theorem put_place (h : Mid s node) (hb : b < nmeta) {q : Nat × Nat} (hq : q ∈ slots s.live)
    (haddrs : (node' q.1).addrs = (node q.1).addrs) : place (s.put b data).blk node' q = place s.blk node q := by
  refine place_congr haddrs fun hne => put_of_ne ?_ data
  have := (h.laid.mem _ (indirect_mem hq.1) hne).1
  omega

/-- One of the first blocks is written, and all inodes have the addresses they had. -/
theorem Mid.put (h : Mid s node) (hb : b < nmeta) (haddrs : ∀ j ∈ s.live, (node' j).addrs = (node j).addrs) :
    Mid (s.put b data) node' := by
  refine ⟨h.size, h.lo, ?_, h.laid.congr fun q hq => put_place h hb hq (haddrs q.1 hq.1)⟩
  intro b' hb'
  have hlo := h.lo
  have hb' : s.freeblock ≤ b' := hb'
  rw [put_of_ne (by omega), h.zero b' hb']

theorem Holds.put (h : Mid s node) (hc : Holds s node c) (hb : b < nmeta)
    (haddrs : ∀ j ∈ s.live, (node' j).addrs = (node j).addrs) : Holds (s.put b data) node' c := by
  refine ⟨?_, ?_, hc.fits⟩
  · intro q hq
    rw [put_place h hb hq (haddrs q.1 hq.1)]
    exact hc.mapped q hq
  intro j hj pos hpos
  have hbn : pos / BSIZE < MAXFILE := hpos.trans_le (nblocksOf_le (hc.fits j hj))
  have hmem := slotOf_mem (L := s.live) hj hbn
  have hlo := (h.laid.mem _ hmem ((hc.mapped_iff hj hbn).2 hpos)).1
  rw [← hc.bytes j hj pos hpos, byteAt, put_place h hb hmem (haddrs j hj), put_of_ne (by omega), byteAt]

end Low

/-! ## Appending -/

/-- What an operation on a file leaves alone. -/
structure Frame (s s' : State) : Prop where
  low : ∀ b < sb.inodestart, s'.blk b = s.blk b
  le : s.freeblock ≤ s'.freeblock

theorem iappend_spec (h : Ok s c) (hi : i ∈ s.live) (hs : s.iappend i p = some s') :
    Ok s' (update c i (c i ++ p)) ∧ s'.freeinode = s.freeinode ∧ Frame s s' := by
  have hmax : i < inodesMax := hi.2.trans_le h.inodes
  simp only [State.iappend, rinode_eq h.mid.size hmax, Option.bind_eq_bind, Option.bind_some, h.size i hi,
    Option.bind_eq_some_iff, Prod.exists] at hs
  obtain ⟨s1, din, off, hloop, hs⟩ := hs
  obtain ⟨ht, rfl⟩ := iappendLoop_spec p.length (Nat.le_refl _) h.mid h.holds h.blocks hi hloop
  rw [winode_eq ht.mid.size hmax, Option.some.injEq] at hs
  subst hs
  have hlive := live_congr ht.freeinode
  have hnode : ∀ j < inodesMax, nodeAt s1 j = nodeAt s j := by
    intro j hj
    rw [nodeAt, ht.frame _ (iblock_lt_nmeta hj), nodeAt]
  have hnew : ∀ j ∈ s1.live, nodeAt (s1.putNode i { din with size := BitVec.ofNat 32 ((c i).length + p.length) }) j =
      if j = i then { din with size := BitVec.ofNat 32 ((c i).length + p.length) } else nodeAt s j := by
    intro j hj
    rw [nodeAt_putNode]
    split
    case isTrue h => rw [h, update_self]
    case isFalse hji => rw [update_of_ne hji, hnode j (hj.2.trans_le (ht.freeinode ▸ h.inodes))]
  have haddrs : ∀ j ∈ s1.live,
      (nodeAt (s1.putNode i { din with size := BitVec.ofNat 32 ((c i).length + p.length) }) j).addrs =
      (update (nodeAt s) i din j).addrs := by
    intro j hj
    rw [hnew j hj]
    split
    case isTrue h => rw [h, update_self]
    case isFalse hji => rw [update_of_ne hji]
  have hfits := ht.holds.fits i (hlive ▸ hi)
  rw [update_self, List.length_append] at hfits
  have hb := iblock_lt_nmeta hmax
  refine ⟨⟨ht.mid.put hb haddrs, .put ht.mid ht.holds hb haddrs, ht.hi, ht.freeinode ▸ h.inodes, ?_, ?_⟩, ht.freeinode, ?_,
    ht.le⟩
  · intro j hj
    rw [hnew j hj]
    split
    case isTrue hji =>
      have : (c i).length + p.length ≤ 71680 := hfits
      rw [hji, update_self, List.length_append]
      exact Nat.mod_eq_of_lt (by omega)
    case isFalse hji =>
      rw [update_of_ne hji]
      exact h.size j (hlive ▸ hj)
  · intro j hj
    have htype := ht.type j
    rw [hnew j hj, ← h.type j (hlive ▸ hj), ← htype]
    split
    case isTrue hji => rw [hji, update_self]
    case isFalse hji => rw [update_of_ne hji]
  · intro b hb
    rw [putNode_frame hmax (.inl hb), ht.frame b (hb.trans (by decide))]

theorem iappend_some (h : Ok s c) (hi : i ∈ s.live) (hfits : (c i).length + p.length ≤ MAXFILE * BSIZE)
    (hroom : s.freeblock + 2 * turns (c i).length p.length ≤ FSSIZE) :
    ∃ s', s.iappend i p = some s' ∧ s'.freeblock ≤ s.freeblock + 2 * turns (c i).length p.length := by
  have hmax : i < inodesMax := hi.2.trans_le h.inodes
  obtain ⟨⟨s1, din, off⟩, hloop, hfb⟩ := iappendLoop_some p.length h.mid h.holds hi hfits hroom
  obtain ⟨ht, -⟩ := iappendLoop_spec p.length (Nat.le_refl _) h.mid h.holds h.blocks hi hloop
  refine ⟨s1.putNode i { din with size := BitVec.ofNat 32 off }, ?_, hfb⟩
  simp only [State.iappend, rinode_eq h.mid.size hmax, Option.bind_eq_bind, Option.bind_some, h.size i hi, hloop,
    winode_eq ht.mid.size hmax]

theorem Frame.refl (s : State) : Frame s s := ⟨fun _ _ => rfl, Nat.le_refl _⟩

theorem Frame.trans {s'' : State} (h : Frame s s') (h' : Frame s' s'') : Frame s s'' :=
  ⟨fun b hb => (h'.low b hb).trans (h.low b hb), h.le.trans h'.le⟩

theorem Ok.congr (h : Ok s c) (heq : ∀ i ∈ s.live, c' i = c i) : Ok s c' := by
  refine ⟨h.mid, ⟨?_, ?_, ?_⟩, h.blocks, h.inodes, ?_, h.type⟩
  · intro q hq
    rw [heq q.1 hq.1]
    exact h.holds.mapped q hq
  all_goals intro i hi; rw [heq i hi]
  · exact h.holds.bytes i hi
  · exact h.holds.fits i hi
  · exact h.size i hi

/-! ## New inodes -/

/-- A new inode has no blocks. -/
theorem place_zero {blk : Nat → Block} {node : Nat → Dinode} (h : ∀ k, (node i).addrs k = 0) (k : Nat) :
    place blk node (i, k) = 0 := by
  obtain hk | ⟨e, rfl⟩ := slot_cases k
  · rw [place_direct i hk, h]
    rfl
  · refine place_entry_zero i e ?_
    rw [place_indirect, h]
    rfl

theorem mem_live_succ {n : Nat} (hn : 1 ≤ n) : i ∈ Set.Ico 1 (n + 1) ↔ i = n ∨ i ∈ Set.Ico 1 n := by
  simp only [Set.mem_Ico]
  omega

theorem ialloc_spec (h : Ok s c) (hpos : 1 ≤ s.freeinode) (hlt : s.freeinode < inodesMax) (type : BitVec 16)
    (htype : type = if s.freeinode = ROOTINO then T_DIR else T_FILE) :
    ∃ s', s.ialloc type = some (s', s.freeinode) ∧ Ok s' (update c s.freeinode []) ∧
      s'.freeinode = s.freeinode + 1 ∧ s'.freeblock = s.freeblock ∧ Frame s s' := by
  set d : Dinode := { Dinode.zero with type := type, nlink := 1 } with hd
  have hnode : nodeAt (State.putNode { s with freeinode := s.freeinode + 1 } s.freeinode d) =
      update (nodeAt s) s.freeinode d := nodeAt_putNode _ _ _
  have hnew : ∀ k, place s.blk (update (nodeAt s) s.freeinode d) (s.freeinode, k) = 0 :=
    place_zero fun k => by rw [update_self]; rfl
  have hold : ∀ q : Nat × Nat, q.1 ∈ s.live →
      place s.blk (update (nodeAt s) s.freeinode d) q = place s.blk (nodeAt s) q := by
    intro q hq
    refine place_congr ?_ fun _ => rfl
    rw [update_of_ne (Nat.ne_of_lt hq.2)]
  have hmid : Mid { s with freeinode := s.freeinode + 1 } (update (nodeAt s) s.freeinode d) := by
    refine ⟨h.mid.size, h.mid.lo, h.mid.zero, (h.mid.laid.congr fun q hq => hold q hq.1).grow ?_⟩
    rintro ⟨j, k⟩ hq
    obtain rfl | hj := (mem_live_succ hpos).1 hq.1
    · exact .inr (hnew k)
    · exact .inl ⟨hj, hq.2⟩
  have hholds : Holds { s with freeinode := s.freeinode + 1 } (update (nodeAt s) s.freeinode d)
      (update c s.freeinode []) := by
    refine ⟨?_, ?_, ?_⟩
    · rintro ⟨j, k⟩ hq
      obtain rfl | hj := (mem_live_succ hpos).1 hq.1
      · rw [update_self, show place _ _ (s.freeinode, k) = 0 from hnew k]
        simp [nblocksOf]
      · rw [update_of_ne (Nat.ne_of_lt hj.2), show place _ _ (j, k) = _ from hold (j, k) hj]
        exact h.holds.mapped (j, k) ⟨hj, hq.2⟩
    · intro j hj pos hblock
      obtain rfl | hj := (mem_live_succ hpos).1 hj
      · rw [update_self] at hblock
        simp [nblocksOf] at hblock
      · rw [update_of_ne (Nat.ne_of_lt hj.2)] at hblock ⊢
        rw [← h.holds.bytes j hj pos hblock, byteAt, hold (j, _) hj, byteAt]
    intro j hj
    obtain rfl | hj := (mem_live_succ hpos).1 hj
    · rw [update_self]
      exact Nat.zero_le _
    · rw [update_of_ne (Nat.ne_of_lt hj.2)]
      exact h.holds.fits j hj
  refine ⟨State.putNode { s with freeinode := s.freeinode + 1 } s.freeinode d, ?_, ?_, rfl, rfl, ?_, Nat.le_refl _⟩
  · simp only [State.ialloc, winode_eq (s := { s with freeinode := s.freeinode + 1 }) h.mid.size hlt,
      Option.bind_eq_bind, Option.bind_some, Option.pure_def, hd]
  · have haddrs : ∀ j ∈ State.live { s with freeinode := s.freeinode + 1 },
        (nodeAt (State.putNode { s with freeinode := s.freeinode + 1 } s.freeinode d) j).addrs =
          (update (nodeAt s) s.freeinode d j).addrs := fun j _ => by rw [hnode]
    have hb := iblock_lt_nmeta hlt
    refine ⟨hmid.put hb haddrs, .put hmid hholds hb haddrs, h.blocks, hlt, ?_, ?_⟩
    all_goals
      intro j hj
      rw [hnode]
      obtain rfl | hj := (mem_live_succ hpos).1 hj
    · rw [update_self, update_self]
      rfl
    · rw [update_of_ne (Nat.ne_of_lt hj.2), update_of_ne (Nat.ne_of_lt hj.2)]
      exact h.size j hj
    · rw [update_self]
      exact htype
    · rw [update_of_ne (Nat.ne_of_lt hj.2)]
      exact h.type j hj
  · intro b hb
    exact putNode_frame hlt (.inl hb)

/-! ## All files -/

def entry (inum : Nat) (name : List UInt8) : List UInt8 := Dirent.bytes ⟨BitVec.ofNat 16 inum, name⟩

theorem entry_length (inum : Nat) (name : List UInt8) : (entry inum name).length = 16 := by
  simp [entry, Dirent.bytes, Fs.DIRSIZ]

def File.bytes (f : File) : List UInt8 := (f.reads.getD []).flatten

/-- The entries of the root directory: an inode and a name each. -/
def dents (files : List File) : List (Nat × List UInt8) :=
  (ROOTINO, Fs.dot) :: (ROOTINO, Fs.dotdot) :: (files.zipIdx 2).map fun (f, i) => (i, f.stripped)

def rootBytes (files : List File) : List UInt8 := (dents files).flatMap fun e => entry e.1 e.2

/-- What is in each inode. -/
def contents (files : List File) (i : Nat) : List UInt8 :=
  if i = ROOTINO then rootBytes files else ((files[i - 2]?).map File.bytes).getD []

theorem addReads_spec : ∀ (bufs : List (List UInt8)) {s s' : State} {c : Nat → List UInt8}, Ok s c → i ∈ s.live →
    State.addReads i bufs s = some s' →
    Ok s' (update c i (c i ++ bufs.flatten)) ∧ s'.freeinode = s.freeinode ∧ Frame s s'
  | [], s, s', c, h, _, hs => by
    cases hs
    refine ⟨?_, rfl, .refl s⟩
    rwa [List.flatten_nil, List.append_nil, update_eq_self]
  | buf :: bufs, s, s', c, h, hi, hs => by
    simp only [State.addReads, Option.bind_eq_bind, Option.bind_eq_some_iff] at hs
    obtain ⟨s1, hs1, hs⟩ := hs
    obtain ⟨h1, hfi, hframe⟩ := iappend_spec h hi hs1
    obtain ⟨h2, hfi', hframe'⟩ := addReads_spec bufs h1 (live_congr hfi ▸ hi) hs
    refine ⟨?_, hfi'.trans hfi, hframe.trans hframe'⟩
    simpa using h2

theorem rootBytes_snoc (files : List File) (f : File) :
    rootBytes (files ++ [f]) = rootBytes files ++ entry (files.length + 2) f.stripped := by
  simp [rootBytes, dents, List.zipIdx_append, Nat.add_comm]

theorem contents_snoc (files : List File) (f : File) (hi : i < files.length + 3) (hpos : 1 ≤ i) :
    contents (files ++ [f]) i = if i = ROOTINO then rootBytes files ++ entry (files.length + 2) f.stripped
      else if i = files.length + 2 then f.bytes else contents files i := by
  rw [contents, contents, rootBytes_snoc]
  split
  case isTrue => rfl
  case isFalse hne =>
    have hne' : i ≠ 1 := hne
    split
    case isTrue h => simp [h]
    case isFalse h => rw [List.getElem?_append_left (by omega)]

theorem addFile_spec (h : Ok s (contents files)) (hn : s.freeinode = files.length + 2)
    (hlt : files.length + 2 < inodesMax) (hs : s.addFile f = some s') :
    Ok s' (contents (files ++ [f])) ∧ s'.freeinode = files.length + 3 ∧ Frame s s' := by
  rw [State.addFile] at hs
  split at hs
  case isTrue => cases hs
  case isFalse =>
    obtain ⟨s1, hs1, h1, hfi1, -, hframe1⟩ := ialloc_spec h (by omega) (by omega) T_FILE
      (by rw [if_neg]; show s.freeinode ≠ 1; omega)
    simp only [Option.bind_eq_bind, Option.bind_eq_some_iff, hs1, Option.bind_some] at hs
    obtain ⟨reads, hreads, s2, hs2, hs3⟩ := hs
    obtain ⟨h2, hfi2, hframe2⟩ := iappend_spec h1 (show ROOTINO ∈ s1.live from ⟨by decide, by show 1 < _; omega⟩) hs2
    obtain ⟨h3, hfi3, hframe3⟩ := addReads_spec reads h2 (show s.freeinode ∈ s2.live from ⟨by omega, by omega⟩) hs3
    refine ⟨h3.congr ?_, by omega, hframe1.trans (hframe2.trans hframe3)⟩
    intro i hi
    have hi2 : i < s'.freeinode := hi.2
    have hne : ROOTINO ≠ files.length + 2 := by show 1 ≠ _; omega
    rw [contents_snoc files f (by omega) hi.1, hn]
    by_cases hroot : i = ROOTINO
    · rw [if_pos hroot, hroot, update_of_ne hne, update_self, update_of_ne hne]
      rfl
    rw [if_neg hroot]
    by_cases hnew : i = files.length + 2
    · rw [if_pos hnew, hnew, update_self, update_of_ne (Ne.symm hne), update_self, File.bytes,
        hreads]
      rfl
    · rw [if_neg hnew, update_of_ne hnew, update_of_ne hroot, update_of_ne hnew]

theorem addFiles_spec : ∀ (fs : List File) {s s' : State} {files : List File}, Ok s (contents files) →
    s.freeinode = files.length + 2 → files.length + fs.length + 2 ≤ inodesMax → State.addFiles fs s = some s' →
    Ok s' (contents (files ++ fs)) ∧ s'.freeinode = (files ++ fs).length + 2 ∧ Frame s s'
  | [], s, s', files, h, hn, _, hs => by
    cases hs
    rw [List.append_nil]
    exact ⟨h, hn, .refl s⟩
  | f :: fs, s, s', files, h, hn, hlt, hs => by
    simp only [State.addFiles, Option.bind_eq_bind, Option.bind_eq_some_iff] at hs
    obtain ⟨s1, hs1, hs⟩ := hs
    rw [List.length_cons] at hlt
    obtain ⟨h1, hfi1, hframe1⟩ := addFile_spec h hn (by omega) hs1
    have hlen : (files ++ [f]).length = files.length + 1 := by simp
    have ih := addFiles_spec fs h1 (by omega) (by omega) hs
    rw [List.append_assoc, List.singleton_append] at ih
    exact ⟨ih.1, ih.2.1, hframe1.trans ih.2.2⟩

/-! ## What is accepted -/

/-- A buffer is in two blocks at most, and each can need the indirect block as well. -/
theorem turns_le (off len : Nat) (hlen : len ≤ BSIZE) : turns off len ≤ 2 := by
  have : len ≤ 512 := hlen
  rw [turns]
  split
  · omega
  · rw [nblocksOf]
    omega

/-- More blocks than the file and its entry can take. -/
def File.room (f : File) : Nat := 4 + 4 * (f.reads.getD []).length

structure File.Plain (f : File) : Prop where
  slash : 47 ∉ f.name
  opens : f.reads.isSome
  fits : f.bytes.length ≤ MAXFILE * BSIZE

theorem addReads_some : ∀ (bufs : List (List UInt8)) {s : State} {c : Nat → List UInt8}, Ok s c → i ∈ s.live →
    (∀ buf ∈ bufs, buf.length ≤ BSIZE) → (c i ++ bufs.flatten).length ≤ MAXFILE * BSIZE →
    s.freeblock + 4 * bufs.length ≤ FSSIZE →
    ∃ s', State.addReads i bufs s = some s' ∧ s'.freeblock ≤ s.freeblock + 4 * bufs.length
  | [], s, c, _, _, _, _, _ => ⟨s, rfl, Nat.le_add_right _ _⟩
  | buf :: bufs, s, c, h, hi, hbufs, hfits, hroom => by
    rw [List.flatten_cons, List.length_append, List.length_append] at hfits
    rw [List.length_cons] at hroom ⊢
    have hturns := turns_le (c i).length buf.length (hbufs buf List.mem_cons_self)
    obtain ⟨s1, hs1, hfb⟩ := iappend_some h hi (p := buf) (by omega) (by omega)
    obtain ⟨h1, hfi, -⟩ := iappend_spec h hi hs1
    have ih := addReads_some bufs h1 (live_congr hfi ▸ hi) (fun b hb => hbufs b (List.mem_cons_of_mem _ hb))
      (by rw [update_self, List.length_append, List.length_append]; omega) (by omega)
    obtain ⟨s', hs', hfb'⟩ := ih
    refine ⟨s', ?_, by omega⟩
    simp only [State.addReads, hs1, Option.bind_eq_bind, Option.bind_some, hs']

theorem dents_length (files : List File) : (dents files).length = files.length + 2 := by simp [dents]

theorem rootBytes_length (files : List File) : (rootBytes files).length = 16 * (files.length + 2) := by
  rw [rootBytes, List.length_flatMap, List.map_congr_left fun e _ => entry_length e.1 e.2, List.map_const',
    List.sum_replicate_nat, dents_length, Nat.mul_comm]

theorem addFile_some (h : Ok s (contents files)) (hn : s.freeinode = files.length + 2)
    (hlt : files.length + 2 < inodesMax) (hf : f.Plain) (hroom : s.freeblock + f.room ≤ FSSIZE) :
    ∃ s', s.addFile f = some s' ∧ s'.freeblock ≤ s.freeblock + f.room := by
  obtain ⟨reads, hreads⟩ := Option.isSome_iff_exists.1 hf.opens
  have hfits := hf.fits
  rw [File.bytes, hreads, Option.getD_some] at hfits
  rw [File.room, hreads, Option.getD_some] at hroom ⊢
  have hlt' : files.length + 2 < 208 := hlt
  obtain ⟨s1, hs1, h1, hfi1, hfb1, -⟩ := ialloc_spec h (by omega) (by omega) T_FILE
    (by rw [if_neg]; show s.freeinode ≠ 1; omega)
  have hroot : ROOTINO ∈ s1.live := ⟨by decide, by show 1 < _; omega⟩
  have hne : ROOTINO ≠ s.freeinode := by show 1 ≠ _; omega
  have hc : update (contents files) s.freeinode [] ROOTINO = rootBytes files := by
    rw [update_of_ne hne]
    rfl
  have hturns := turns_le (rootBytes files).length (entry s.freeinode f.stripped).length (by rw [entry_length]; decide)
  obtain ⟨s2, hs2, hfb2⟩ := iappend_some h1 hroot (p := entry s.freeinode f.stripped)
    (by rw [hc, rootBytes_length, entry_length]; show _ ≤ 71680; omega) (by rw [hc]; omega)
  obtain ⟨h2, hfi2, -⟩ := iappend_spec h1 hroot hs2
  have hnew : s.freeinode ∈ s2.live := ⟨by omega, by omega⟩
  rw [hc] at hfb2
  obtain ⟨s3, hs3, hfb3⟩ := addReads_some reads h2 hnew (fun buf hb => (f.sized reads hreads buf hb).2)
    (by rw [update_of_ne (Ne.symm hne), update_self, List.nil_append]; exact hfits) (by omega)
  refine ⟨s3, ?_, by omega⟩
  have hentry : s1.addEntry s.freeinode f.stripped = some s2 := hs2
  simp only [State.addFile, if_neg hf.slash, hreads, hs1, Option.bind_eq_bind, Option.bind_some, hentry, hs3]

theorem addFiles_some : ∀ (fs : List File) {s : State} {files : List File}, Ok s (contents files) →
    s.freeinode = files.length + 2 → files.length + fs.length + 2 ≤ inodesMax → (∀ f ∈ fs, f.Plain) →
    s.freeblock + (fs.map File.room).sum ≤ FSSIZE → ∃ s', State.addFiles fs s = some s'
  | [], s, files, _, _, _, _, _ => ⟨s, rfl⟩
  | f :: fs, s, files, h, hn, hlt, hf, hroom => by
    rw [List.length_cons] at hlt
    rw [List.map_cons, List.sum_cons] at hroom
    obtain ⟨s1, hs1, hfb1⟩ := addFile_some h hn (by omega) (hf f List.mem_cons_self) (by omega)
    obtain ⟨h1, hfi1, -⟩ := addFile_spec h hn (by omega) hs1
    have hlen : (files ++ [f]).length = files.length + 1 := by simp
    obtain ⟨s', hs'⟩ := addFiles_some fs h1 (by omega) (by omega) (fun g hg => hf g (List.mem_cons_of_mem _ hg))
      (by omega)
    refine ⟨s', ?_⟩
    simp only [State.addFiles, hs1, Option.bind_eq_bind, Option.bind_some, hs']

/-! ## The empty image -/

theorem zeroed_eq : ∀ n ≤ FSSIZE,
    (List.range n).foldl (State.wsect · · zeroes) ⟨fun _ => zeroes, 0, 1, nmeta⟩ = ⟨fun _ => zeroes, n, 1, nmeta⟩ := by
  intro n hn
  induction n with
  | zero => rfl
  | succ n ih =>
    rw [List.range_succ, List.foldl_append, ih (by omega)]
    simp only [List.foldl_cons, List.foldl_nil, State.wsect, sector_eq (show n ≤ FSSIZE + 2 by omega)]
    rw [update_eq_self, Nat.max_eq_right (Nat.le_succ n)]

theorem blank_eq : blank = State.put ⟨fun _ => zeroes, FSSIZE, 1, nmeta⟩ 1 superblock := by
  rw [blank, zeroed_eq FSSIZE (Nat.le_refl _), wsect_eq rfl (by decide)]

theorem blank_ok (c : Nat → List UInt8) : Ok blank c := by
  have hlive : blank.live = ∅ := by
    rw [blank_eq]
    exact Set.Ico_self 1
  have hno : ∀ i, i ∉ blank.live := fun i => by simp [hlive]
  refine ⟨⟨?_, ?_, ?_, ?_, ?_⟩, ⟨?_, ?_, ?_⟩, ?_, ?_, ?_, ?_⟩
  · rw [blank_eq]
    rfl
  · rw [blank_eq]
    exact Nat.le_refl _
  · intro b hb
    rw [blank_eq] at hb ⊢
    exact put_of_ne (by have : 59 ≤ b := hb; omega) _
  · exact fun q hq => absurd hq.1 (hno _)
  · exact fun q hq => absurd hq.1 (hno _)
  · exact fun q hq => absurd hq.1 (hno _)
  · exact fun i hi => absurd hi (hno i)
  · exact fun i hi => absurd hi (hno i)
  · rw [blank_eq]
    decide
  · rw [blank_eq]
    decide
  · exact fun i hi => absurd hi (hno i)
  · exact fun i hi => absurd hi (hno i)

theorem start_spec : ∃ s, start = some s ∧ Ok s (contents []) ∧ s.freeinode = 2 ∧ s.freeblock ≤ nmeta + 4 ∧
    s.blk 1 = superblock := by
  have hfi : blank.freeinode = 1 := by
    rw [blank_eq]
    rfl
  obtain ⟨s1, hs1, h1, hfi1, hfb1, hframe1⟩ := ialloc_spec (blank_ok fun _ => []) (by omega) (by rw [hfi]; decide)
    T_DIR (by rw [hfi]; rfl)
  rw [hfi] at hs1 h1
  have hroot : ROOTINO ∈ s1.live := ⟨by decide, by show 1 < _; omega⟩
  have hfb : s1.freeblock = 59 := by
    rw [hfb1, blank_eq]
    rfl
  have hc1 : update (fun _ => []) 1 [] ROOTINO = ([] : List UInt8) := rfl
  obtain ⟨s2, hs2, hfb2⟩ := iappend_some h1 hroot (p := entry ROOTINO Fs.dot)
    (by rw [hc1, entry_length]; decide) (by rw [hc1, entry_length, hfb]; decide)
  obtain ⟨h2, hfi2, hframe2⟩ := iappend_spec h1 hroot hs2
  rw [hc1, entry_length, hfb] at hfb2
  rw [hc1, List.nil_append] at h2
  have hfb2' : s2.freeblock ≤ 61 := hfb2
  have hroot2 : ROOTINO ∈ s2.live := live_congr hfi2 ▸ hroot
  obtain ⟨s3, hs3, hfb3⟩ := iappend_some h2 hroot2 (p := entry ROOTINO Fs.dotdot)
    (by rw [update_self, entry_length, entry_length]; decide)
    (by
      rw [update_self, entry_length, entry_length]
      exact Nat.add_le_add hfb2' (by decide : 2 * turns 16 16 ≤ 939))
  obtain ⟨h3, hfi3, hframe3⟩ := iappend_spec h2 hroot2 hs3
  rw [update_self, entry_length, entry_length] at hfb3
  refine ⟨s3, ?_, h3.congr ?_, by omega, hfb3.trans (Nat.add_le_add_right hfb2' 2), ?_⟩
  · have hdot : s1.addEntry 1 Fs.dot = some s2 := hs2
    have hdotdot : s2.addEntry 1 Fs.dotdot = some s3 := hs3
    simp only [start, hs1, Option.bind_eq_bind, Option.bind_some, if_pos, hdot, hdotdot]
  · intro i hi
    obtain rfl : i = ROOTINO := by
      have : i < s3.freeinode := hi.2
      exact Nat.le_antisymm (by show i ≤ 1; omega) hi.1
    rw [update_self, update_self]
    rfl
  · rw [hframe3.low 1 (by decide), hframe2.low 1 (by decide), hframe1.low 1 (by decide), blank_eq, put_self]

/-! ## The image -/

/-- How the image for `files` looks when all its inodes are in the inode blocks. -/
structure Image (files : List File) (r : State) : Prop where
  mid : Mid r (nodeAt r)
  holds : Holds r (nodeAt r) (contents files)
  freeinode : r.freeinode = files.length + 2
  blocks : r.freeblock ≤ FSSIZE
  size : ∀ i ∈ r.live, (nodeAt r i).size.toNat =
    if i = ROOTINO then ((rootBytes files).length / BSIZE + 1) * BSIZE else (contents files i).length
  type : ∀ i ∈ r.live, (nodeAt r i).type = if i = ROOTINO then T_DIR else T_FILE
  super : r.blk 1 = superblock
  bitmap : ∀ b, Codec.Bit (r.blk sb.bmapstart) b ↔ b < r.freeblock

theorem bit_zeroes (j : Nat) : ¬ Codec.Bit zeroes j := by
  simp [Codec.Bit]

theorem fixRoot_eq (h : Ok s (contents files)) (hn : s.freeinode = files.length + 2) : s.fixRoot = some (s.putNode ROOTINO
    { nodeAt s ROOTINO with size := BitVec.ofNat 32 (((rootBytes files).length / BSIZE + 1) * BSIZE) }) := by
  have hroot : ROOTINO ∈ s.live := ⟨by decide, by show 1 < _; omega⟩
  have hmax : ROOTINO < inodesMax := by decide
  have hsize := h.size ROOTINO hroot
  rw [contents, if_pos rfl] at hsize
  simp only [State.fixRoot, rinode_eq h.mid.size hmax, Option.bind_eq_bind, Option.bind_some, hsize,
    winode_eq h.mid.size hmax]

theorem balloc_eq (hsize : s.size = FSSIZE) {used : Nat} (hused : used ≤ FSSIZE) :
    s.balloc used = some (s.put sb.bmapstart ((List.range used).foldl Codec.setBit zeroes)) := by
  have : used ≤ 1000 := hused
  rw [State.balloc, if_pos (by show used < 4096; omega), wsect_eq hsize (by decide)]

theorem image_spec (h : Ok s (contents files)) (hn : s.freeinode = files.length + 2)
    (hsuper : s.blk 1 = superblock) (hs : s.fixRoot >>= (fun s => s.balloc s.freeblock) = some r) : Image files r := by
  have hmax : ROOTINO < inodesMax := by decide
  rw [fixRoot_eq h hn] at hs
  set d : Dinode := { nodeAt s ROOTINO with size := BitVec.ofNat 32 (((rootBytes files).length / BSIZE + 1) * BSIZE) }
  have hbal := balloc_eq (s := s.putNode ROOTINO d) h.mid.size h.blocks
  obtain rfl := Option.some.inj (hbal.symm.trans hs)
  set r := (s.putNode ROOTINO d).put sb.bmapstart ((List.range s.freeblock).foldl Codec.setBit zeroes)
  have hnode : ∀ i ∈ s.live, nodeAt r i = if i = ROOTINO then d else nodeAt s i := by
    intro i hi
    have hput : nodeAt r i = nodeAt (s.putNode ROOTINO d) i := by
      rw [nodeAt, put_of_ne (Nat.ne_of_lt (iblock_lt (hi.2.trans_le h.inodes)).2), nodeAt]
    rw [hput, nodeAt_putNode]
    split
    case isTrue heq => rw [heq, update_self]
    case isFalse hne => rw [update_of_ne hne]
  have haddrs : ∀ i ∈ s.live, (nodeAt r i).addrs = (nodeAt s i).addrs := by
    intro i hi
    rw [hnode i hi]
    split
    case isTrue heq => rw [heq]
    case isFalse => rfl
  have hlow := iblock_lt_nmeta hmax
  have hmid : Mid (s.putNode ROOTINO d) (nodeAt r) := h.mid.put hlow haddrs
  have hholds : Holds (s.putNode ROOTINO d) (nodeAt r) (contents files) := .put h.mid h.holds hlow haddrs
  refine ⟨hmid.put (by decide) fun _ _ => rfl, .put hmid hholds (by decide) fun _ _ => rfl, hn, h.blocks, ?_, ?_, ?_, ?_⟩
  · intro i hi
    rw [hnode i hi]
    split
    case isTrue heq =>
      have hroot : ROOTINO ∈ s.live := ⟨by decide, by show 1 < _; omega⟩
      have hfits : (rootBytes files).length ≤ 71680 := h.holds.fits ROOTINO hroot
      refine Nat.mod_eq_of_lt ?_
      simp only [BSIZE]
      omega
    case isFalse hne => exact h.size i hi
  · intro i hi
    rw [hnode i hi, ← h.type i hi]
    split
    case isTrue heq => rw [heq]
    case isFalse => rfl
  · rw [put_of_ne (by decide), putNode_frame hmax (.inl (by decide)), hsuper]
  · intro b
    rw [put_self, Codec.bit_foldl_setBit, List.mem_range]
    exact or_iff_left (bit_zeroes b)

theorem main_spec (hlen : files.length + 2 ≤ inodesMax) (hs : main files = some r) : Image files r := by
  obtain ⟨s0, hstart, h0, hfi0, -, hsuper⟩ := start_spec
  simp only [main, hstart, Option.bind_eq_bind, Option.bind_some] at hs
  obtain ⟨s, hadd, hs⟩ := Option.bind_eq_some_iff.1 hs
  obtain ⟨h, hfi, hframe⟩ := addFiles_spec files h0 hfi0 (by simpa using hlen) hadd
  rw [List.nil_append] at h hfi
  exact image_spec h hfi ((hframe.low 1 (by decide)).trans hsuper) hs

theorem main_some (files : List File) (hlen : files.length + 2 ≤ inodesMax) (hplain : ∀ f ∈ files, f.Plain)
    (hroom : nmeta + 4 + (files.map File.room).sum ≤ FSSIZE) : ∃ r, main files = some r := by
  obtain ⟨s0, hstart, h0, hfi0, hfb0, -⟩ := start_spec
  obtain ⟨s, hadd⟩ := addFiles_some files h0 hfi0 (by simpa using hlen) hplain (by omega)
  obtain ⟨h, hfi, -⟩ := addFiles_spec files h0 hfi0 (by simpa using hlen) hadd
  have hbal := balloc_eq (s := s.putNode ROOTINO
    { nodeAt s ROOTINO with size := BitVec.ofNat 32 (((rootBytes ([] ++ files)).length / BSIZE + 1) * BSIZE) })
    h.mid.size h.blocks
  refine ⟨_, Eq.trans ?_ hbal⟩
  simp only [main, hstart, hadd, Option.bind_eq_bind, Option.bind_some, fixRoot_eq h hfi]
  rfl

end Xv6.Mkfs
