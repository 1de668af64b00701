import Xv6Threading.Mkfs.Files
import Mathlib.Order.Interval.Finset.Nat

/-!
# What `mkfs` does not check (`mkfs.c:117-171`)

The number of inodes and the names are not looked at: inodes behind the last inode block are written over the bitmap
and then over data, and a name can be taken twice. And the size of the root directory is rounded up to the next block
even when it ends at one: the last block is not there then.
-/

namespace Xv6.Mkfs

open Sysfile

variable {s s' r : State} {files : List File} {i k : Nat} {e : Nat × List UInt8} {din din' : Dinode} {p : List UInt8}

/-! ## Holes -/

/-- Every inode has a block for all of its size. -/
def NoHole (r : State) : Prop :=
  ∀ i ∈ r.live, ∀ bn < nblocksOf (nodeAt r i).size.toNat, blockAddr r.blk (nodeAt r i) bn ≠ 0

theorem Image.blockAddr_iff (h : Image files r) (hi : i ∈ r.live) (bn : Nat) :
    blockAddr r.blk (nodeAt r i) bn ≠ 0 ↔ bn < nblocksOf (contents files i).length := by
  rw [blockAddr]
  split
  case isTrue hbn => exact h.holds.mapped_iff hi hbn
  case isFalse hbn =>
    have := nblocksOf_le (h.holds.fits i hi)
    simp only [ne_eq, not_true_eq_false, false_iff]
    omega

theorem Image.root_mem (h : Image files r) : ROOTINO ∈ r.live :=
  ⟨by decide, by show 1 < _; rw [h.freeinode]; omega⟩

/-- The root directory lacks its last block when its entries fill all others. -/
theorem Image.noHole_iff (h : Image files r) : NoHole r ↔ (files.length + 2) % 32 ≠ 0 := by
  have hroot := h.size ROOTINO h.root_mem
  rw [if_pos rfl, rootBytes_length] at hroot
  constructor
  · intro hno hmod
    have hblock := (h.blockAddr_iff h.root_mem _).1 (hno ROOTINO h.root_mem (16 * (files.length + 2) / 512) ?_)
    · rw [contents, if_pos rfl, rootBytes_length, nblocksOf] at hblock
      omega
    · rw [hroot, nblocksOf]
      simp only [BSIZE]
      omega
  intro hmod i hi bn hbn
  rw [h.blockAddr_iff hi]
  rw [h.size i hi] at hbn
  split at hbn
  case isTrue heq =>
    rw [heq, contents, if_pos rfl]
    rw [rootBytes_length] at hbn ⊢
    simp only [nblocksOf, BSIZE] at hbn ⊢
    omega
  case isFalse => exact hbn

/-! ## More inodes than there is room for -/

/-- Counters only go up. -/
structure Later (n : Nat) (s s' : State) : Prop where
  freeinode : s'.freeinode = s.freeinode + n
  freeblock : s.freeblock ≤ s'.freeblock

theorem Later.refl (s : State) : Later 0 s s := ⟨rfl, Nat.le_refl _⟩

theorem Later.trans {s'' : State} {n m : Nat} (h : Later n s s') (h' : Later m s' s'') : Later (n + m) s s'' :=
  ⟨by rw [h'.freeinode, h.freeinode, Nat.add_assoc], h.freeblock.trans h'.freeblock⟩

theorem later_winode {d : Dinode} (hs : s.winode i d = some s') : Later 0 s s' := by
  simp only [State.winode, Option.bind_eq_bind, Option.bind_eq_some_iff, Option.pure_def, Option.some.injEq] at hs
  obtain ⟨_, _, rfl⟩ := hs
  exact ⟨rfl, Nat.le_refl _⟩

theorem later_mapAddr (s : State) (din : Dinode) (k : Nat) : Later 0 s (s.mapAddr din k).1 := by
  rw [State.mapAddr]
  split
  · exact ⟨rfl, Nat.le_succ _⟩
  · exact .refl s

theorem later_mapEntry {ind e x : Nat} (hs : s.mapEntry ind e = some (s', x)) : Later 0 s s' := by
  simp only [State.mapEntry, Option.bind_eq_bind, Option.bind_eq_some_iff] at hs
  obtain ⟨_, _, hs⟩ := hs
  split at hs
  all_goals
    simp only [Option.pure_def, Option.some.injEq, Prod.mk.injEq] at hs
    obtain ⟨rfl, -⟩ := hs
  · exact ⟨rfl, Nat.le_succ _⟩
  · exact .refl s

theorem later_map {fbn x : Nat} (hs : s.map din fbn = some (s', din', x)) : Later 0 s s' := by
  rw [State.map] at hs
  split at hs
  case isTrue =>
    simp only [Option.some.injEq, Prod.mk.injEq] at hs
    obtain ⟨rfl, -⟩ := hs
    exact later_mapAddr s din fbn
  case isFalse =>
    simp only [Option.bind_eq_bind, Option.bind_eq_some_iff, Option.pure_def, Option.some.injEq, Prod.mk.injEq,
      Prod.exists] at hs
    obtain ⟨_, _, hs, rfl, -⟩ := hs
    exact (later_mapAddr s din NDIRECT).trans (later_mapEntry hs)

theorem later_turn {off n1 : Nat} (hs : s.turn din off p = some (s', din', n1)) : Later 0 s s' := by
  rw [State.turn] at hs
  split at hs
  case isFalse => cases hs
  case isTrue =>
    simp only [Option.bind_eq_bind, Option.bind_eq_some_iff, Option.pure_def, Option.some.injEq, Prod.mk.injEq,
      Prod.exists] at hs
    obtain ⟨s1, _, _, hs, _, _, rfl, -⟩ := hs
    have hmap := later_map hs
    exact ⟨hmap.freeinode, hmap.freeblock⟩

theorem later_iappendLoop : ∀ (fuel : Nat) {s s' : State} {din din' : Dinode} {off off' : Nat} {p : List UInt8},
    State.iappendLoop fuel s din off p = some (s', din', off') → Later 0 s s'
  | 0, s, s', din, din', off, off', p, hs => by
    simp only [State.iappendLoop, Option.some.injEq, Prod.mk.injEq] at hs
    obtain ⟨rfl, -⟩ := hs
    exact .refl s
  | fuel + 1, s, s', din, din', off, off', p, hs => by
    rw [State.iappendLoop] at hs
    split at hs
    case isTrue =>
      simp only [Option.some.injEq, Prod.mk.injEq] at hs
      obtain ⟨rfl, -⟩ := hs
      exact .refl s
    case isFalse =>
      simp only [Option.bind_eq_bind, Option.bind_eq_some_iff, Prod.exists] at hs
      obtain ⟨s1, _, _, hturn, hs⟩ := hs
      exact (later_turn hturn).trans (later_iappendLoop fuel hs)

theorem later_iappend (hs : s.iappend i p = some s') : Later 0 s s' := by
  simp only [State.iappend, Option.bind_eq_bind, Option.bind_eq_some_iff, Prod.exists] at hs
  obtain ⟨_, _, _, _, _, hloop, hs⟩ := hs
  exact (later_iappendLoop _ hloop).trans (later_winode hs)

theorem later_ialloc {type : BitVec 16} (hs : s.ialloc type = some (s', i)) : Later 1 s s' := by
  simp only [State.ialloc, Option.bind_eq_bind, Option.bind_eq_some_iff, Option.pure_def, Option.some.injEq,
    Prod.mk.injEq] at hs
  obtain ⟨_, hs, rfl, -⟩ := hs
  have hw := later_winode hs
  exact ⟨hw.freeinode, hw.freeblock⟩

theorem later_addReads : ∀ (bufs : List (List UInt8)) {s s' : State}, State.addReads i bufs s = some s' → Later 0 s s'
  | [], s, s', hs => by
    cases hs
    exact .refl s
  | buf :: bufs, s, s', hs => by
    simp only [State.addReads, Option.bind_eq_bind, Option.bind_eq_some_iff] at hs
    obtain ⟨s1, hs1, hs⟩ := hs
    exact (later_iappend hs1).trans (later_addReads bufs hs)

theorem later_addFile {f : File} (hs : s.addFile f = some s') : Later 1 s s' := by
  rw [State.addFile] at hs
  split at hs
  case isTrue => cases hs
  case isFalse =>
    simp only [Option.bind_eq_bind, Option.bind_eq_some_iff, Prod.exists] at hs
    obtain ⟨_, _, _, _, halloc, _, hentry, hs⟩ := hs
    exact (later_ialloc halloc).trans ((later_iappend hentry).trans (later_addReads _ hs))

theorem later_addFiles : ∀ (fs : List File) {s s' : State}, State.addFiles fs s = some s' → Later fs.length s s'
  | [], s, s', hs => by
    cases hs
    exact .refl s
  | f :: fs, s, s', hs => by
    simp only [State.addFiles, Option.bind_eq_bind, Option.bind_eq_some_iff] at hs
    obtain ⟨s1, hs1, hs⟩ := hs
    have := (later_addFile hs1).trans (later_addFiles fs hs)
    rwa [Nat.add_comm] at this

theorem addFiles_append (fs gs : List File) (s : State) :
    State.addFiles (fs ++ gs) s = (State.addFiles fs s).bind (State.addFiles gs) := by
  induction fs generalizing s with
  | nil => rfl
  | cons f fs ih =>
    simp only [List.cons_append, State.addFiles, Option.bind_eq_bind, Option.bind_assoc, ih]

/-- The blocks of the root directory are different ones. -/
theorem Ok.root_blocks (h : Ok s (contents files)) (hroot : ROOTINO ∈ s.live) :
    nmeta + nblocksOf (16 * (files.length + 2)) ≤ s.freeblock := by
  have hlen : (contents files ROOTINO).length = 16 * (files.length + 2) := rootBytes_length files
  have hfits := nblocksOf_le (h.holds.fits ROOTINO hroot)
  rw [hlen] at hfits
  have hplaced : ∀ bn < nblocksOf (16 * (files.length + 2)), place s.blk (nodeAt s) (ROOTINO, slotOf bn) ≠ 0 := by
    intro bn hbn
    rw [h.holds.mapped_iff hroot (hbn.trans_le hfits), hlen]
    exact hbn
  have hcard := Finset.card_le_card_of_injOn (s := Finset.range (nblocksOf (16 * (files.length + 2))))
    (t := Finset.Ico nmeta s.freeblock) (fun bn => place s.blk (nodeAt s) (ROOTINO, slotOf bn)) ?_ ?_
  · rw [Finset.card_range, Nat.card_Ico] at hcard
    have := h.mid.lo
    omega
  · intro bn hbn
    have hbn := Finset.mem_range.1 hbn
    exact Finset.mem_Ico.2 (h.mid.laid.mem _ (slotOf_mem hroot (hbn.trans_le hfits)) (hplaced bn hbn))
  intro bn hbn bn' hbn' heq
  have hbn := Finset.mem_range.1 hbn
  have hbn' := Finset.mem_range.1 hbn'
  have := h.mid.laid.inj _ (slotOf_mem hroot (hbn.trans_le hfits)) _ (slotOf_mem hroot (hbn'.trans_le hfits))
    (hplaced bn hbn) heq
  exact slotOf_inj (congrArg Prod.snd this)

/-- The first inode that has no place is in the block of the bitmap, and read from there it has holes. -/
theorem bitmap_hole {m : Block} {used : Nat} (hbit : ∀ b, Codec.Bit m b ↔ b < used) (hused : 64 < used)
    (blk : Nat → Block) : ∃ bn < nblocksOf (dinodeAt m 0).size.toNat, blockAddr blk (dinodeAt m 0) bn = 0 := by
  by_cases hall : used ≤ 96
  · -- its size is not 0, and its first address is
    have hsize : (dinodeAt m 0).size.toNat ≠ 0 := by
      have h8 : (m 8).toNat ≠ 0 := by
        intro h0
        refine (hbit 64).2 hused ?_
        rw [show m (64 / 8) = 0 from UInt8.toNat_inj.1 h0]
        exact UInt8.zero_and
      have hget : Codec.get m 8 4 < 2 ^ 32 ∧ Codec.get m 8 4 ≠ 0 := by
        have h9 := (m 9).toNat_lt
        have h10 := (m 10).toNat_lt
        have h11 := (m 11).toNat_lt
        have h8' := (m 8).toNat_lt
        simp only [Codec.get, Nat.add_zero, Nat.reduceAdd]
        omega
      show Codec.get m 8 4 % 2 ^ 32 ≠ 0
      rw [Nat.mod_eq_of_lt hget.1]
      exact hget.2
    refine ⟨0, ?_, ?_⟩
    · rw [nblocksOf]
      omega
    have hzero : Codec.get m 12 4 = Codec.get zeroes 12 4 := by
      refine Codec.get_congr fun j hj => Codec.byte_eq_of_bits m zeroes fun k hk => ?_
      rw [hbit]
      exact iff_of_false (by omega) (bit_zeroes _)
    show (BitVec.ofNat 32 (Codec.get m 12 4)).toNat = 0
    rw [hzero]
    rfl
  -- it is as large as can be
  have hones : Codec.get m 8 4 = Codec.get (fun _ => 255) 8 4 := by
    refine Codec.get_congr fun j hj => Codec.byte_eq_of_bits m (fun _ => 255) fun k hk => ?_
    rw [hbit]
    refine iff_of_true (by omega) ?_
    rw [Codec.bit_iff]
    have : (8 * (8 + j) + k) % 8 = k := by omega
    rw [this]
    interval_cases k <;> rfl
  refine ⟨MAXFILE, ?_, rfl⟩
  show MAXFILE < nblocksOf (Codec.get m 8 4 % 2 ^ 32)
  rw [hones]
  decide

theorem later_fixRoot (hs : s.fixRoot = some s') : Later 0 s s' := by
  simp only [State.fixRoot, Option.bind_eq_bind, Option.bind_eq_some_iff] at hs
  obtain ⟨_, _, hs⟩ := hs
  exact later_winode hs

/-- What is left of the image when there are more inodes than the inode blocks have room for. -/
theorem main_later (hlen : inodesMax < files.length + 2) (hs : main files = some r) :
    inodesMax ∈ r.live ∧ ∃ used, 64 < used ∧ ∀ b, Codec.Bit (r.blk sb.bmapstart) b ↔ b < used := by
  obtain ⟨s0, hstart, h0, hfi0, -, -⟩ := start_spec
  have hlen' : 208 < files.length + 2 := hlen
  have htake : (files.take 206).length = 206 := by simp; omega
  simp only [main, hstart, Option.bind_eq_bind, Option.bind_some] at hs
  obtain ⟨s, hadd, hs⟩ := Option.bind_eq_some_iff.1 hs
  obtain ⟨s', hfix, hs⟩ := Option.bind_eq_some_iff.1 hs
  have hlater := later_addFiles files hadd
  have hlater' := later_fixRoot hfix
  have hfi := hlater.freeinode
  have hfi' := hlater'.freeinode
  rw [← List.take_append_drop 206 files, addFiles_append] at hadd
  obtain ⟨s1, hadd1, hadd2⟩ := Option.bind_eq_some_iff.1 hadd
  obtain ⟨h1, hfi1, -⟩ := addFiles_spec _ h0 hfi0 (by rw [htake]; decide) hadd1
  rw [List.nil_append, htake] at hfi1
  have hroot := h1.root_blocks ⟨by decide, by rw [hfi1]; decide⟩
  rw [List.nil_append, htake, show nmeta + nblocksOf (16 * (206 + 2)) = 66 from rfl] at hroot
  have hle := hroot.trans ((later_addFiles _ hadd2).freeblock.trans hlater'.freeblock)
  rw [State.balloc] at hs
  split at hs
  case isFalse => cases hs
  case isTrue =>
    obtain rfl := Option.some.inj hs
    refine ⟨⟨by decide, ?_⟩, s'.freeblock, by omega, ?_⟩
    · show 208 < s'.freeinode
      omega
    · intro b
      rw [wsect_self (by decide), Codec.bit_foldl_setBit, List.mem_range]
      exact or_iff_left (bit_zeroes b)

/-- **Where `mkfs` leaves a hole.** Every inode of an image has a block for all of its size exactly when the inode
blocks have room for all inodes and the entries of the root directory do not end with a block. -/
theorem image_no_hole_iff (hs : main files = some r) :
    NoHole r ↔ files.length + 2 ≤ inodesMax ∧ (files.length + 2) % 32 ≠ 0 := by
  by_cases hlen : files.length + 2 ≤ inodesMax
  · rw [(main_spec hlen hs).noHole_iff]
    exact (and_iff_right hlen).symm
  refine iff_of_false ?_ fun h => hlen h.1
  intro hno
  obtain ⟨hmem, used, hused, hbit⟩ := main_later (Nat.lt_of_not_le hlen) hs
  obtain ⟨bn, hbn, h0⟩ := bitmap_hole hbit hused r.blk
  exact hno inodesMax hmem bn hbn h0

/-- An empty file whose name is one letter. -/
def letter (k : Fin 30) : File where
  name := [UInt8.ofNat (65 + k)]
  reads := some []
  nonul := by revert k; decide
  sized := by simp

theorem letter_plain (k : Fin 30) : (letter k).Plain where
  slash := by revert k; decide
  opens := rfl
  fits := Nat.zero_le _

theorem image_no_hole_iff_one : ∃ r, main [letter 0] = some r ∧ (NoHole r ↔ 1 + 2 ≤ inodesMax ∧ (1 + 2) % 32 ≠ 0) := by
  obtain ⟨r, hr⟩ := main_some [letter 0] (by decide) (by simp [letter_plain]) (by decide)
  exact ⟨r, hr, image_no_hole_iff hr⟩

/-- With 30 files the root directory has 32 entries, one block full, and its size says two blocks. -/
theorem hole_with_thirty : ∃ r, main ((List.finRange 30).map letter) = some r ∧ ¬ NoHole r := by
  have hplain : ∀ f ∈ (List.finRange 30).map letter, f.Plain := by
    intro f hf
    obtain ⟨k, -, rfl⟩ := List.mem_map.1 hf
    exact letter_plain k
  obtain ⟨r, hr⟩ := main_some _ (by decide) hplain (by decide)
  refine ⟨r, hr, ?_⟩
  rw [(main_spec (by decide) hr).noHole_iff]
  decide

/-! ## Names -/

/-- Entry `k` of the root directory. -/
def rootEntry (r : State) (k : Nat) : Dirent :=
  Dirent.ofBytes ((List.range 16).map fun j => byteAt r.blk (nodeAt r) ROOTINO (16 * k + j))

/-- It is one of the directory, in a block that is there, and names an inode. -/
def InUse (r : State) (k : Nat) : Prop :=
  16 * k < (nodeAt r ROOTINO).size.toNat ∧ blockAddr r.blk (nodeAt r ROOTINO) (16 * k / BSIZE) ≠ 0 ∧
    (rootEntry r k).inum ≠ 0

structure Fits (r : State) : Prop where
  blocks : ∀ b, nmeta ≤ b → b < r.freeblock → b < FSSIZE
  inodes : ∀ i ∈ r.live, i < NINODES
  within : ∀ i ∈ r.live, sb.inodestart ≤ IBLOCK sb i ∧ IBLOCK sb i < sb.bmapstart
  names : ∀ k l, InUse r k → InUse r l → (rootEntry r k).name = (rootEntry r l).name → k = l

theorem stripped_nonul (f : File) : 0 ∉ f.stripped := by
  rw [File.stripped]
  split
  · exact fun h => f.nonul (List.mem_of_mem_tail h)
  · exact f.nonul

theorem flatMap_window {α : Type} {n : Nat} (f : α → List UInt8) (hlen : ∀ x, (f x).length = n) : ∀ (l : List α) {k j : Nat}
    (hk : k < l.length), j < n → (l.flatMap f).getD (n * k + j) 0 = (f (l.get ⟨k, hk⟩)).getD j 0
  | x :: l, 0, j, _, hj => by
    rw [List.flatMap_cons, Nat.mul_zero, Nat.zero_add, List.getD_append _ _ _ _ (by rw [hlen]; exact hj)]
    rfl
  | x :: l, k + 1, j, hk, hj => by
    rw [List.flatMap_cons, List.getD_append_right _ _ _ _ (by rw [hlen, Nat.mul_succ]; omega), hlen,
      show n * (k + 1) + j - n = n * k + j by rw [Nat.mul_succ]; omega,
      flatMap_window f hlen l (Nat.lt_of_succ_lt_succ hk) hj]
    rfl

theorem Image.rootByte (h : Image files r) {pos : Nat} (hpos : pos / BSIZE < nblocksOf (rootBytes files).length) :
    byteAt r.blk (nodeAt r) ROOTINO pos = (rootBytes files).getD pos 0 :=
  h.holds.bytes ROOTINO h.root_mem pos hpos

theorem dents_nonul (he : e ∈ dents files) : 0 ∉ e.2 := by
  simp only [dents, List.mem_cons, List.mem_map, Prod.exists] at he
  obtain rfl | rfl | ⟨f, _, -, rfl⟩ := he
  · decide
  · decide
  · exact stripped_nonul f

/-- The entries are read back. -/
theorem Image.rootEntry_eq (h : Image files r) (hk : k < (dents files).length) :
    rootEntry r k = ⟨BitVec.ofNat 16 ((dents files).get ⟨k, hk⟩).1, ((dents files).get ⟨k, hk⟩).2.take Fs.DIRSIZ⟩ := by
  rw [← Dirent.ofBytes_bytes _ (dents_nonul (List.get_mem _ _)), rootEntry]
  congr 1
  refine List.ext_getElem ?_ fun j hj hj' => ?_
  · rw [List.length_map, List.length_range]
    exact (entry_length _ _).symm
  have hj16 : j < 16 := by simpa using hj
  rw [dents_length] at hk
  rw [List.getElem_map, List.getElem_range, h.rootByte, rootBytes,
    flatMap_window (fun e : Nat × List UInt8 => entry e.1 e.2) (fun e => entry_length e.1 e.2) _ _ hj16]
  · exact List.getD_eq_getElem _ _ hj'
  · rw [rootBytes_length]
    simp only [nblocksOf, BSIZE]
    omega

theorem dents_inum (he : e ∈ dents files) : 1 ≤ e.1 ∧ e.1 < files.length + 2 := by
  simp only [dents, List.mem_cons, List.mem_map, Prod.exists] at he
  obtain rfl | rfl | ⟨f, i, hmem, rfl⟩ := he
  · exact ⟨by decide, by show 1 < _; omega⟩
  · exact ⟨by decide, by show 1 < _; omega⟩
  · have := List.mem_zipIdx hmem
    show 1 ≤ i ∧ i < _
    omega

/-- The last block is filled up with entries that are not in use. -/
theorem Image.inUse_iff (h : Image files r) (hlen : files.length + 2 ≤ inodesMax) : InUse r k ↔ k < (dents files).length := by
  have hlen' : files.length + 2 ≤ 208 := hlen
  have hsize := h.size ROOTINO h.root_mem
  have hroot : (contents files ROOTINO).length = 16 * (files.length + 2) := rootBytes_length files
  rw [if_pos rfl, rootBytes_length] at hsize
  rw [InUse, h.blockAddr_iff h.root_mem, hroot, hsize]
  constructor
  · rintro ⟨-, hblock, hinum⟩
    by_contra hge
    rw [dents_length] at hge
    refine hinum ?_
    have hzero : (List.range 16).map (fun j => byteAt r.blk (nodeAt r) ROOTINO (16 * k + j)) = List.replicate 16 0 := by
      refine List.ext_getElem (by simp) fun j hj _ => ?_
      have hj16 : j < 16 := by simpa using hj
      rw [List.getElem_map, List.getElem_range, List.getElem_replicate, h.rootByte, List.getD_eq_default]
      · rw [rootBytes_length]
        omega
      · rw [rootBytes_length]
        simp only [BSIZE] at hblock ⊢
        omega
    rw [rootEntry, hzero]
    rfl
  intro hk
  have hinum := dents_inum (List.get_mem (dents files) ⟨k, hk⟩)
  rw [h.rootEntry_eq hk]
  rw [dents_length] at hk
  refine ⟨?_, ?_, ?_⟩
  · simp only [BSIZE]
    omega
  · simp only [BSIZE, nblocksOf]
    omega
  intro h0
  have := congrArg BitVec.toNat h0
  rw [BitVec.toNat_ofNat, Nat.mod_eq_of_lt (by omega)] at this
  exact absurd this (by show _ ≠ 0; omega)

/-- The names of all entries of the root directory, as far as they are written. -/
def names (files : List File) : List (List UInt8) :=
  Fs.dot :: Fs.dotdot :: files.map fun f => f.stripped.take Fs.DIRSIZ

theorem dents_names (files : List File) : (dents files).map (fun e => e.2.take Fs.DIRSIZ) = names files := by
  have hzip : (files.zipIdx 2).map (fun p => p.1.stripped.take Fs.DIRSIZ) =
      files.map fun f => f.stripped.take Fs.DIRSIZ := by
    rw [← Function.comp_def (fun f : File => f.stripped.take Fs.DIRSIZ) Prod.fst, ← List.map_map, List.zipIdx_map_fst]
  simp only [dents, names, List.map_cons, List.map_map, Function.comp_def, hzip]
  rfl

theorem Image.names_iff (h : Image files r) (hlen : files.length + 2 ≤ inodesMax) :
    (∀ k l, InUse r k → InUse r l → (rootEntry r k).name = (rootEntry r l).name → k = l) ↔ (names files).Nodup := by
  have hname : ∀ k (hk : k < (dents files).length),
      (rootEntry r k).name = ((dents files).get ⟨k, hk⟩).2.take Fs.DIRSIZ := fun k hk => by rw [h.rootEntry_eq hk]
  rw [← dents_names, List.nodup_iff_injective_getElem]
  constructor
  · rintro hnames ⟨k, hk⟩ ⟨l, hl⟩ heq
    have hk' : k < (dents files).length := by simpa using hk
    have hl' : l < (dents files).length := by simpa using hl
    refine Fin.ext (hnames k l ((h.inUse_iff hlen).2 hk') ((h.inUse_iff hlen).2 hl') ?_)
    rw [hname k hk', hname l hl']
    simpa using heq
  intro hinj k l hk hl heq
  have hk' := (h.inUse_iff hlen).1 hk
  have hl' := (h.inUse_iff hlen).1 hl
  rw [hname k hk', hname l hl'] at heq
  have := @hinj ⟨k, by simpa using hk'⟩ ⟨l, by simpa using hl'⟩ (by simpa using heq)
  exact congrArg Fin.val this

theorem Image.fits_iff (h : Image files r) (hlen : files.length + 2 ≤ inodesMax) :
    Fits r ↔ files.length + 2 ≤ NINODES ∧ (names files).Nodup := by
  rw [← h.names_iff hlen]
  constructor
  · intro hfits
    refine ⟨?_, hfits.names⟩
    have hlast : files.length + 1 ∈ r.live := ⟨by omega, by rw [h.freeinode]; omega⟩
    exact hfits.inodes _ hlast
  rintro ⟨hn, hnames⟩
  have hlt : ∀ i ∈ r.live, i < NINODES := by
    intro i hi
    have := hi.2
    rw [h.freeinode] at this
    omega
  refine ⟨fun b _ hb => hb.trans_le h.blocks, hlt, fun i hi => ?_, hnames⟩
  exact iblock_lt ((hlt i hi).trans (by decide))

/-- **What `mkfs` should reject.** All blocks of an image are in it, as every new block is read before it is written.
Its inodes have numbers below `NINODES` and are in the inode blocks, and no name is taken twice, exactly when the
arguments are few enough and their names differ as far as they are written. -/
theorem image_fits_iff (hs : main files = some r) : Fits r ↔ files.length + 2 ≤ NINODES ∧ (names files).Nodup := by
  by_cases hlen : files.length + 2 ≤ inodesMax
  · exact (main_spec hlen hs).fits_iff hlen
  have hlt : 208 < files.length + 2 := Nat.lt_of_not_le hlen
  refine iff_of_false ?_ ?_
  · intro hfits
    have := hfits.inodes _ (main_later (Nat.lt_of_not_le hlen) hs).1
    exact absurd this (by decide)
  · rintro ⟨hn, -⟩
    have : files.length + 2 ≤ 200 := hn
    omega

theorem image_fits_iff_one : ∃ r, main [letter 0] = some r ∧ (Fits r ↔ 1 + 2 ≤ NINODES ∧ (names [letter 0]).Nodup) := by
  obtain ⟨r, hr⟩ := main_some [letter 0] (by decide) (by simp [letter_plain]) (by decide)
  exact ⟨r, hr, image_fits_iff hr⟩

/-- Two files of one name. -/
theorem same_name_accepted : ∃ r, main [letter 0, letter 0] = some r ∧ ¬ Fits r := by
  obtain ⟨r, hr⟩ := main_some [letter 0, letter 0] (by decide) (by simp [letter_plain]) (by decide)
  refine ⟨r, hr, ?_⟩
  rw [(main_spec (by decide) hr).fits_iff (by decide)]
  decide

end Xv6.Mkfs
