import Xv6Threading.Log.Calls
import Xv6Threading.Sysfile.Map

/-!
# One process alone with the disk (`fs.c:287-312`, `fs.c:372-511`, `log.c:125-235`)

The programs on inodes run from beginning to end, with nobody else around: a block of the disk is what was last written
to its buffer, and an inode is known by its number, with the copy of its fields in memory. `Solo.step` is what the actions
do then. Processes, open files and pipes are not part of it. Of the log there are the blocks that `log_write` counts; a
commit changes no block as seen through the cache, and ends with an empty log.

| here | there |
| --- | --- |
| `Solo.blk` | the blocks, through the cache |
| `Solo.node`, `Solo.valid` | `struct inode` |
| `Solo.trans` | `log.lh.block` while `log.outstanding` is 1; `none` while it is 0 and the log empty |
| `Stop.panic` | `panic` |
| `Stop.other` | an action that is not about inodes and blocks, or an operation within another |
-/

namespace Xv6.Sysfile

open Function

structure Solo where
  blk : Nat → Block
  node : Nat → Dinode
  valid : Nat → Bool
  trans : Option (Finset Nat)

inductive Stop where
  | panic (e : Panic)
  | other
deriving DecidableEq

namespace Solo

variable {F : Type}

def step (s : Solo) : (a : Act Nat F ⊕ Blk) → Except Stop (Resp Blk.Resp a × Solo)
  | .inr (.bread b) => .ok (s.blk b, s)
  | .inr (.put b data) => .ok ((), { s with blk := update s.blk b data })
  | .inr (.logWrite b) => match s.trans with
    | none => .error (.panic .logWriteOutsideOfTrans)
    | some blocks =>
      if blocks.card ≥ Log.LOGSIZE ∨ blocks.card ≥ Log.nlog - 1 then .error (.panic .tooBigATransaction)
      else .ok ((), { s with trans := some (insert b blocks) })
  | .inr (.bwrite _) | .inr (.brelse _) => .ok ((), s)
  | .inl .beginOp => if s.trans.isSome then .error .other else .ok ((), { s with trans := some ∅ })
  | .inl .endOp => if s.trans.isSome then .ok (none, { s with trans := none }) else .error .other
  | .inl (.iget _ inum) => .ok (inum, s)
  | .inl (.idup _) | .inl (.drop _) | .inl (.acquiresleep _) | .inl (.releasesleep _) => .ok ((), s)
  | .inl (.ref _) => .ok (1, s)
  | .inl (.dev _) => .ok (ROOTDEV, s)
  | .inl (.inum ip) => .ok (ip, s)
  | .inl (.holdingsleep _) => .ok (true, s)
  | .inl (.valid ip) => .ok (s.valid ip, s)
  | .inl (.setValid ip v) => .ok ((), { s with valid := update s.valid ip v })
  | .inl (.fields ip) => .ok (s.node ip, s)
  | .inl (.assign ip d) => .ok ((), { s with node := update s.node ip d })
  | .inl (.panic e) => .error (.panic e)
  | .inl _ => .error .other

/-- A program on blocks. -/
def exec {α : Type} (p : Low Nat F α) (s : Solo) : Except Stop (α × Solo) := p.run step s

/-- A program with its contents written out. -/
def call {α : Type} (sb : Super) (p : Sys Nat F α) (s : Solo) : Except Stop (α × Solo) := exec (p.expand (lower sb)) s

variable {s s' : Solo} {sb : Super} {ip bn off n k : Nat} {α β : Type} {m : Nat} {x : α}

theorem exec_bind {p : Low Nat F α} (hp : exec p s = .ok (x, s')) (f : α → Low Nat F β) :
    exec (p >>= f) s = exec (f x) s' := Prog.run_bind_ok hp f

@[simp] theorem exec_bread (b : Nat) (f : Block → Low Nat F β) : exec (bread b >>= f) s = exec (f (s.blk b)) s := rfl

@[simp] theorem exec_brelse (b : Nat) (f : Unit → Low Nat F β) : exec (brelse b >>= f) s = exec (f ()) s := rfl

@[simp] theorem exec_fields (ip : Nat) (f : Dinode → Low Nat F β) : exec (fields ip >>= f) s = exec (f (s.node ip)) s :=
  rfl

/-! ## Reading -/

theorem mapAddr_eq (hk : k ≤ NDIRECT) (hne : place s.blk s.node (ip, k) ≠ 0) :
    exec (mapAddr (F := F) sb ip (Fin.ofNat _ k)) s = .ok (place s.blk s.node (ip, k), s) := by
  rw [place_direct ip hk] at hne ⊢
  rw [mapAddr, exec_fields, if_pos]
  · rfl
  · intro h0
    rw [h0] at hne
    exact hne rfl

/-- A block that is mapped is found, and nothing changes. -/
theorem bmap_eq (hbn : bn < MAXFILE) (hne : place s.blk s.node (ip, slotOf bn) ≠ 0) :
    exec (bmap (F := F) sb ip bn) s = .ok (place s.blk s.node (ip, slotOf bn), s) := by
  rw [bmap]
  by_cases hlt : bn < NDIRECT
  · have hslot : slotOf bn = bn := if_pos hlt
    rw [hslot] at hne ⊢
    rw [if_pos hlt, mapAddr_eq (Nat.le_of_lt hlt) hne]
  obtain ⟨e, rfl⟩ : ∃ e, bn = NDIRECT + e := ⟨bn - NDIRECT, by omega⟩
  have hslot : slotOf (NDIRECT + e) = NDIRECT + 1 + e := by
    rw [slotOf, if_neg hlt]
    omega
  have he : e < NINDIRECT := by
    simp only [MAXFILE] at hbn
    omega
  rw [hslot] at hne ⊢
  have hind : place s.blk s.node (ip, NDIRECT) ≠ 0 := fun h0 => hne (place_entry_zero ip e h0)
  rw [place_entry ip e hind] at hne ⊢
  have hlast : exec (mapAddr (F := F) sb ip (Fin.last NDIRECT)) s = .ok (place s.blk s.node (ip, NDIRECT), s) :=
    mapAddr_eq (Nat.le_refl NDIRECT) hind
  rw [if_neg hlt, Nat.add_sub_cancel_left, if_pos he, exec_bind hlast, exec_bread, if_pos]
  · rfl
  · intro h0
    rw [h0] at hne
    exact hne rfl

/-- The bytes of a file from `off` on. -/
def bytes (s : Solo) (ip off n : Nat) : List UInt8 := (List.range n).map fun j => byteAt s.blk s.node ip (off + j)

theorem bytes_add (s : Solo) (ip off m n : Nat) : s.bytes ip off (m + n) = s.bytes ip off m ++ s.bytes ip (off + m) n := by
  rw [bytes, List.range_add, List.map_append, List.map_map]
  congr 1
  refine List.map_congr_left fun j _ => ?_
  show byteAt s.blk s.node ip (off + (m + j)) = _
  rw [Nat.add_assoc]

/-- Within one block. -/
theorem bytesAt_eq (s : Solo) (ip off : Nat) (hm : m ≤ 512 - off % 512) :
    bytesAt (s.blk (place s.blk s.node (ip, slotOf (off / 512)))) (off % 512) m = s.bytes ip off m := by
  refine List.map_congr_left fun j hj => ?_
  have hj := List.mem_range.1 hj
  have hdiv : (off + j) / 512 = off / 512 := by omega
  have hmod : (off + j) % 512 = off % 512 + j := by omega
  show _ = s.blk (place s.blk s.node (ip, slotOf ((off + j) / 512))) ((off + j) % 512)
  rw [hdiv, hmod]

/-- The map has a block for the first `e` bytes. -/
def MappedTo (s : Solo) (ip e : Nat) : Prop :=
  e ≤ MAXFILE * BSIZE ∧ ∀ bn, bn * 512 < e → place s.blk s.node (ip, slotOf bn) ≠ 0

theorem MappedTo.mono {e e' : Nat} (h : s.MappedTo ip e) (he : e' ≤ e) : s.MappedTo ip e' :=
  ⟨he.trans h.1, fun bn hbn => h.2 bn (hbn.trans_le he)⟩

theorem readLoop_eq : ∀ (fuel off n : Nat), n ≤ fuel → s.MappedTo ip (off + n) →
    exec (readLoop (F := F) sb ip fuel off n) s = .ok (s.bytes ip off n, s)
  | 0, off, n, hn, _ => by
    rw [Nat.le_zero.1 hn]
    rfl
  | fuel + 1, off, n, hn, hmapped => by
    rw [readLoop]
    split
    case isTrue h0 =>
      rw [h0]
      rfl
    case isFalse h0 =>
      have hoff : off + n ≤ 71680 := hmapped.1
      have hbn : off / BSIZE < MAXFILE := by
        show off / 512 < 140
        omega
      set m := min n (512 - off % 512) with hm
      have ih := readLoop_eq fuel (off + m) (n - m) (by omega)
        (by rwa [show off + m + (n - m) = off + n by omega])
      rw [exec_bind (bmap_eq hbn (hmapped.2 _ (by simp only [BSIZE]; omega))), exec_bread, exec_brelse, exec_bind ih]
      show Except.ok (bytesAt _ _ _ ++ _, s) = _
      rw [show off / BSIZE = off / 512 from rfl, show off % BSIZE = off % 512 from rfl, bytesAt_eq s ip off (by omega),
        ← bytes_add, show m + (n - m) = n by omega]

theorem add_lt_iff (off n : BitVec 32) : off + n < off ↔ 2 ^ 32 ≤ off.toNat + n.toNat := by
  have := off.isLt
  have := n.isLt
  rw [BitVec.lt_def, BitVec.toNat_add]
  omega

/-- `readi` delivers the bytes from `off` on, as far as there are any. -/
theorem readBytes_eq (sb : Super) (s : Solo) (off n : BitVec 32)
    (hm : s.MappedTo ip (min (off.toNat + n.toNat) (s.node ip).size.toNat)) :
    exec (readBytes (F := F) sb ip off n) s =
    .ok (if (s.node ip).size.toNat < off.toNat ∨ 2 ^ 32 ≤ off.toNat + n.toNat then none
      else some (s.bytes ip off.toNat (min n.toNat ((s.node ip).size.toNat - off.toNat))), s) := by
  have hoff := off.isLt
  have hn := n.isLt
  rw [readBytes, exec_fields]
  by_cases hbad : (s.node ip).size.toNat < off.toNat ∨ 2 ^ 32 ≤ off.toNat + n.toNat
  · rw [if_pos hbad, if_pos (by rwa [add_lt_iff, gt_iff_lt, BitVec.lt_def])]
    rfl
  rw [if_neg hbad, if_neg (by rwa [add_lt_iff, gt_iff_lt, BitVec.lt_def])]
  have hlen : (if off + n > (s.node ip).size then (s.node ip).size - off else n).toNat =
      min n.toNat ((s.node ip).size.toNat - off.toNat) := by
    split
    case isTrue h =>
      rw [gt_iff_lt, BitVec.lt_def, BitVec.toNat_add] at h
      rw [BitVec.toNat_sub_of_le (by rw [BitVec.le_def]; omega)]
      omega
    case isFalse h =>
      rw [gt_iff_lt, BitVec.lt_def, BitVec.toNat_add] at h
      omega
  show exec (readLoop sb ip (BitVec.toNat (if _ then _ else _)) off.toNat (BitVec.toNat (if _ then _ else _)) >>= _) s = _
  rw [hlen, exec_bind (readLoop_eq _ _ _ (Nat.le_refl _) (hm.mono (by omega)))]
  rfl

/-! ## Directories -/

theorem call_eq_run (sb : Super) (p : Sys Nat F α) (s : Solo) :
    call sb p s = p.run (fun s a => (lower sb a).run step s) s := Prog.run_expand (lower sb) p s

theorem call_bind {p : Sys Nat F α} (hp : call sb p s = .ok (x, s')) (f : α → Sys Nat F β) :
    call sb (p >>= f) s = call sb (f x) s' := by
  rw [call_eq_run] at hp ⊢
  rw [call_eq_run, Prog.run_bind_ok hp]

theorem call_content (sb : Super) (c : Content Nat) (s : Solo) : call sb (content (F := F) c) s =
    exec (F := F) (impl sb c) s := by
  rw [call_eq_run, content, Prog.run_ask]
  rfl

/-- Entry `k` of a directory. -/
def dirent (s : Solo) (dp k : Nat) : Dirent := Dirent.ofBytes (s.bytes dp (16 * k) 16)

theorem readDe_eq (hm : s.MappedTo ip (16 * k + 16)) (hk : 16 * k + 16 ≤ (s.node ip).size.toNat) :
    call sb (content (F := F) (.readDe ip (BitVec.ofNat 32 (16 * k)))) s = .ok (some (s.dirent ip k), s) := by
  have hmax : 16 * k + 16 ≤ 71680 := hm.1
  have hoff : (BitVec.ofNat 32 (16 * k)).toNat = 16 * k := Nat.mod_eq_of_lt (by omega)
  have hread := readBytes_eq (F := F) sb s (BitVec.ofNat 32 (16 * k)) 16
    (hm.mono (by rw [hoff]; exact Nat.min_le_left _ _))
  rw [hoff, if_neg (by show ¬ (_ ∨ 2 ^ 32 ≤ 16 * k + 16); omega),
    show min (BitVec.toNat 16) ((s.node ip).size.toNat - 16 * k) = 16 from
      Nat.min_eq_left (by show 16 ≤ _; omega)] at hread
  rw [call_content]
  show exec (readDe sb ip _) s = _
  rw [readDe, exec_bind hread]
  show Except.ok (if (s.bytes ip (16 * k) 16).length = 16 then _ else _, s) = _
  rw [if_pos (by simp [bytes])]
  rfl

/-- The loop finds the first entry with the name. -/
theorem dirlookupLoop_eq (hm : s.MappedTo ip (16 * m + 16)) (hsize : 16 * m + 16 ≤ (s.node ip).size.toNat)
    (name : Fs.Name) (hfound : (s.dirent ip m).inum ≠ 0 ∧ (s.dirent ip m).name = name) :
    ∀ (fuel : Nat) {k : Nat}, k ≤ m → m - k < fuel →
    (∀ l, k ≤ l → l < m → ¬ ((s.dirent ip l).inum ≠ 0 ∧ (s.dirent ip l).name = name)) →
    call sb (dirlookupLoop (F := F) ip name fuel (BitVec.ofNat 32 (16 * k))) s =
      .ok (some ((s.dirent ip m).inum.toNat, BitVec.ofNat 32 (16 * m)), s)
  | 0, k, _, hfuel, _ => absurd hfuel (Nat.not_lt_zero _)
  | fuel + 1, k, hk, hfuel, hbefore => by
    rw [dirlookupLoop, call_bind (readDe_eq (hm.mono (by omega)) (by omega))]
    by_cases hkm : k = m
    · subst hkm
      show call sb (if _ then _ else _) s = _
      rw [if_pos hfound]
      rfl
    show call sb (if _ then _ else _) s = _
    rw [if_neg (hbefore k (Nat.le_refl k) (by omega))]
    have hnext : BitVec.ofNat 32 (16 * k) + 16 = BitVec.ofNat 32 (16 * (k + 1)) := by
      rw [Nat.mul_succ, BitVec.ofNat_add]
      rfl
    rw [hnext]
    exact dirlookupLoop_eq hm hsize name hfound fuel (by omega) (by omega) fun l hl => hbefore l (by omega)

theorem dirlookup_eq (sb : Super) (ip : Nat) (htype : (s.node ip).type = T_DIR) (hm : s.MappedTo ip (16 * m + 16))
    (hsize : 16 * m + 16 ≤ (s.node ip).size.toNat) (name : Fs.Name)
    (hfound : (s.dirent ip m).inum ≠ 0 ∧ (s.dirent ip m).name = name)
    (hbefore : ∀ l < m, (s.dirent ip l).name ≠ name) :
    call sb (dirlookup (F := F) ip name) s = .ok (some ((s.dirent ip m).inum.toNat, BitVec.ofNat 32 (16 * m)), s) := by
  show call sb (if (s.node ip).type ≠ T_DIR then _ else _) s = _
  rw [if_neg (not_not.2 htype)]
  refine dirlookupLoop_eq hm hsize name hfound _ (k := 0) (Nat.zero_le m) ?_ fun l _ hl h => hbefore l hl h.2
  rw [entries]
  omega

/-- `ilock` of an inode that is not in memory yet. -/
theorem ilock_eq (hvalid : s.valid ip = false) (htype : (dinodeAt (s.blk (IBLOCK sb ip)) (ip % IPB)).type ≠ 0) :
    call sb (ilock (F := F) ip) s = .ok ((), { s with
      node := update s.node ip (dinodeAt (s.blk (IBLOCK sb ip)) (ip % IPB))
      valid := update s.valid ip true }) := by
  have hload : call sb (content (F := F) (.load ip)) s = .ok ((), { s with
      node := update s.node ip (dinodeAt (s.blk (IBLOCK sb ip)) (ip % IPB)) }) := by
    rw [call_content]
    rfl
  show call sb (if s.valid ip = true then _ else _) s = _
  rw [if_neg (by simp [hvalid]), call_bind hload]
  show call sb (if (update s.node ip _ ip).type = 0 then _ else _) _ = _
  rw [update_self, if_neg htype]
  rfl

end Solo

end Xv6.Sysfile
