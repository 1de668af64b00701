import Xv6Threading.Mkfs.Limits
import Xv6Threading.Sysfile.Solo

/-!
# The kernel on a new image (`fs.c:31-39`, `fs.c:372-476`, `fs.c:528-546`)

What `mkfs` writes is read with the kernel's own code: the superblock, inodes from their blocks, `bmap`, `readi` and
`dirlookup`.

| here | there |
| --- | --- |
| `readsb` | the superblock as the kernel reads it |
| `boot` | the image, and no inode in memory |
| `find` | `dirlookup` in the root directory |
| `readAll` | `readi` of all of a file |
-/

namespace Xv6.Mkfs

open Sysfile

variable {r : State} {files : List File} {i k : Nat}

def readsb (blk : Nat → Block) : Super where
  size := (uintAt (blk 1) 0).toNat
  ninodes := (uintAt (blk 1) 2).toNat
  logstart := (uintAt (blk 1) 4).toNat
  inodestart := (uintAt (blk 1) 5).toNat
  bmapstart := (uintAt (blk 1) 6).toNat

def boot (r : State) : Solo := ⟨r.blk, fun _ => Dinode.zero, fun _ => false, none⟩

def find (name : Fs.Name) : Sys Nat Unit (Option Nat) := do
  let dp ← iget ROOTDEV ROOTINO
  ilock dp
  return (← dirlookup dp name).map (·.1)

def readAll (inum : Nat) : Sys Nat Unit (Option (List UInt8)) := do
  let ip ← iget ROOTDEV inum
  ilock ip
  readi ip 0 (← fields ip).size

theorem readsb_superblock : readsb (fun _ => superblock) = sb := by
  decide

theorem Image.readsb_eq (h : Image files r) : readsb r.blk = sb := by
  rw [← readsb_superblock, readsb, readsb, h.super]

/-- Inode `i` has been read. -/
def opened (r : State) (i : Nat) : Solo where
  blk := r.blk
  node := Function.update (fun _ => Dinode.zero) i (nodeAt r i)
  valid := Function.update (fun _ => false) i true
  trans := none

theorem Image.ilock_eq (h : Image files r) (hi : i ∈ r.live) :
    Solo.call sb (ilock (F := Unit) i) (boot r) = .ok ((), opened r i) := by
  refine Solo.ilock_eq rfl ?_
  show (nodeAt r i).type ≠ 0
  rw [h.type i hi]
  split <;> decide

theorem opened_node (r : State) (i : Nat) : (opened r i).node i = nodeAt r i := by simp [opened]

theorem opened_place (r : State) (i k : Nat) :
    place (opened r i).blk (opened r i).node (i, k) = place r.blk (nodeAt r) (i, k) := by
  rw [place, place, opened_node]
  rfl

theorem opened_byteAt (r : State) (i pos : Nat) :
    byteAt (opened r i).blk (opened r i).node i pos = byteAt r.blk (nodeAt r) i pos := by
  rw [byteAt, byteAt, opened_place]
  rfl

theorem Image.mappedTo (h : Image files r) (hi : i ∈ r.live) : (opened r i).MappedTo i (contents files i).length := by
  refine ⟨h.holds.fits i hi, fun bn hbn => ?_⟩
  have hlt : bn < nblocksOf (contents files i).length := by
    rw [nblocksOf]
    omega
  rw [opened_place, h.holds.mapped_iff hi (hlt.trans_le (nblocksOf_le (h.holds.fits i hi)))]
  exact hlt

theorem Image.bytes_eq (h : Image files r) (hi : i ∈ r.live) :
    (opened r i).bytes i 0 (contents files i).length = contents files i := by
  refine List.ext_getElem (by simp [Solo.bytes]) fun j hj hj' => ?_
  simp only [Solo.bytes, List.getElem_map, List.getElem_range, Nat.zero_add]
  rw [opened_byteAt, h.holds.bytes i hi j, List.getD_eq_getElem _ _ hj']
  simp only [nblocksOf, BSIZE]
  omega

theorem opened_dirent (r : State) (k : Nat) : (opened r ROOTINO).dirent ROOTINO k = rootEntry r k := by
  rw [Solo.dirent, Solo.bytes, rootEntry]
  simp only [opened_byteAt]

/-- A file is read with all its bytes. -/
theorem Image.readAll_eq (h : Image files r) (hi : i ∈ r.live) (hne : i ≠ ROOTINO) :
    Solo.call sb (readAll i) (boot r) = .ok (some (contents files i), opened r i) := by
  have hsize := h.size i hi
  rw [if_neg hne] at hsize
  have hm := h.mappedTo hi
  have hread := Solo.readBytes_eq (F := Unit) sb (opened r i) 0 (nodeAt r i).size
    (hm.mono (by rw [opened_node, hsize]; exact Nat.min_le_right _ _))
  show Solo.call sb (ilock i >>= fun _ => _) (boot r) = _
  rw [Solo.call_bind (h.ilock_eq hi)]
  show Solo.call sb (if ((opened r i).node i).type = T_DEV then _ else _) _ = _
  rw [opened_node, if_neg, Solo.call_content]
  · show Solo.exec (readBytes sb i 0 (nodeAt r i).size) _ = _
    rw [opened_node, hsize, if_neg (by show ¬ (_ < 0 ∨ 2 ^ 32 ≤ 0 + _); have := (nodeAt r i).size.isLt; omega)] at hread
    rw [hread, show min (contents files i).length ((contents files i).length - BitVec.toNat 0) =
      (contents files i).length from Nat.min_self _]
    rw [show BitVec.toNat (0 : BitVec 32) = 0 from rfl, h.bytes_eq hi]
  · rw [h.type i hi, if_neg hne]
    decide

/-- An entry is found under its name, if no other has it. -/
theorem Image.find_eq (h : Image files r) (hlen : files.length + 2 ≤ inodesMax) (hnames : (names files).Nodup)
    (hk : k < (dents files).length) : Solo.call sb (find (((dents files).get ⟨k, hk⟩).2.take Fs.DIRSIZ)) (boot r) =
      .ok (some ((dents files).get ⟨k, hk⟩).1, opened r ROOTINO) := by
  have hroot : (contents files ROOTINO).length = 16 * (files.length + 2) := rootBytes_length files
  have hsize := h.size ROOTINO h.root_mem
  have hentry := h.rootEntry_eq hk
  have hinum := dents_inum (List.get_mem (dents files) ⟨k, hk⟩)
  have hlen' : files.length + 2 ≤ 208 := hlen
  have hk' := hk
  rw [dents_length] at hk'
  rw [if_pos rfl, rootBytes_length] at hsize
  have hlookup := Solo.dirlookup_eq (F := Unit) (s := opened r ROOTINO) (m := k) sb ROOTINO ?_
    ((h.mappedTo h.root_mem).mono (by rw [hroot]; omega)) ?_ (((dents files).get ⟨k, hk⟩).2.take Fs.DIRSIZ) ?_ ?_
  · show Solo.call sb (ilock ROOTINO >>= fun _ => _) (boot r) = _
    rw [Solo.call_bind (h.ilock_eq h.root_mem), Solo.call_bind hlookup, opened_dirent, hentry]
    show Except.ok (some (BitVec.toNat (BitVec.ofNat 16 _)), _) = _
    rw [BitVec.toNat_ofNat, Nat.mod_eq_of_lt (by omega)]
  · rw [opened_node, h.type _ h.root_mem, if_pos rfl]
  · rw [opened_node, hsize]
    simp only [BSIZE]
    omega
  · rw [opened_dirent]
    exact ⟨((h.inUse_iff hlen).2 hk).2.2, by rw [hentry]⟩
  · intro l hl heq
    rw [opened_dirent] at heq
    have hname : (rootEntry r l).name = (rootEntry r k).name := by rw [heq, hentry]
    have := (h.names_iff hlen).2 hnames l k ((h.inUse_iff hlen).2 (hl.trans hk)) ((h.inUse_iff hlen).2 hk) hname
    omega

theorem dents_get (files : List File) (hk : k < files.length) (hk' : k + 2 < (dents files).length) :
    (dents files).get ⟨k + 2, hk'⟩ = (k + 2, (files.get ⟨k, hk⟩).stripped) := by
  simp [dents, Nat.add_comm]

/-- **`mkfs` and the kernel agree.** Whenever `mkfs` is done, with inode numbers below `NINODES` and names that differ as far
as they are written, the kernel finds every file under its name, with the inode it was given, and reads its bytes. No two
places of the map have the same block, all of them are behind the metadata, and the bitmap has them as used. -/
theorem kernel_agrees (hs : main files = some r) (hinodes : r.freeinode ≤ NINODES) (hnames : (names files).Nodup) :
    (∀ k (hk : k < files.length),
      (∃ s, Solo.call (readsb r.blk) (find ((files.get ⟨k, hk⟩).stripped.take Fs.DIRSIZ)) (boot r) = .ok (some (k + 2), s)) ∧
      ∃ s, Solo.call (readsb r.blk) (readAll (k + 2)) (boot r) = .ok (some (files.get ⟨k, hk⟩).bytes, s)) ∧
    ∀ p ∈ slots r.live, place r.blk (nodeAt r) p ≠ 0 →
      nmeta ≤ place r.blk (nodeAt r) p ∧
      (∀ q ∈ slots r.live, place r.blk (nodeAt r) p = place r.blk (nodeAt r) q → p = q) ∧
      Codec.Bit (r.blk (BBLOCK (readsb r.blk) (place r.blk (nodeAt r) p))) (place r.blk (nodeAt r) p % BPB) := by
  have hlen : files.length + 2 ≤ inodesMax := by
    by_contra hlt
    have hmem := (main_later (Nat.lt_of_not_le hlt) hs).1.2
    have h208 : 208 < r.freeinode := hmem
    have h200 : r.freeinode ≤ 200 := hinodes
    omega
  have h := main_spec hlen hs
  rw [h.readsb_eq]
  refine ⟨?_, ?_⟩
  · intro k hk
    have hk' : k + 2 < (dents files).length := by rw [dents_length]; omega
    have hfind := h.find_eq hlen hnames hk'
    rw [dents_get files hk hk'] at hfind
    have hmem : k + 2 ∈ r.live := ⟨by omega, by rw [h.freeinode]; omega⟩
    have hread := h.readAll_eq hmem (by show k + 2 ≠ 1; omega)
    rw [contents, if_neg (by show k + 2 ≠ 1; omega), Nat.add_sub_cancel, List.getElem?_eq_getElem hk] at hread
    exact ⟨⟨_, hfind⟩, ⟨_, hread⟩⟩
  intro p hp hne
  obtain ⟨hlo, hhi⟩ := h.mid.laid.mem p hp hne
  have hfb : r.freeblock ≤ 1000 := h.blocks
  refine ⟨hlo, fun q hq heq => h.mid.laid.inj p hp q hq hne heq, ?_⟩
  rw [BBLOCK, show place r.blk (nodeAt r) p / BPB = 0 from Nat.div_eq_of_lt (by show _ < 4096; omega), Nat.zero_add,
    Nat.mod_eq_of_lt (by show _ < 4096; omega), h.bitmap]
  exact hhi

/-- The binary of `cat`, of three bytes. -/
def cat : File where
  name := [95, 99, 97, 116]
  reads := some [[1, 2, 3]]
  nonul := by decide
  sized := by simp [BSIZE]

theorem kernel_agrees_cat : ∃ r, main [cat] = some r ∧
    (∃ s, Solo.call (readsb r.blk) (find [99, 97, 116]) (boot r) = .ok (some 2, s)) ∧
    ∃ s, Solo.call (readsb r.blk) (readAll 2) (boot r) = .ok (some [1, 2, 3], s) := by
  have hplain : cat.Plain := ⟨by decide, rfl, by decide⟩
  obtain ⟨r, hr⟩ := main_some [cat] (by decide) (by simp [hplain]) (by decide)
  have hinodes : r.freeinode ≤ NINODES := by
    rw [(main_spec (by decide) hr).freeinode]
    decide
  exact ⟨r, hr, (kernel_agrees hr hinodes (by decide)).1 0 (by decide)⟩

end Xv6.Mkfs
