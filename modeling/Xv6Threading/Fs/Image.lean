import Xv6Threading.Fs.World

/-!
# The image `mkfs` makes is sound

The root holds one entry for each file, the files have the inode numbers from 2 on, and nothing else is allocated.
-/

namespace Xv6.Fs

variable {args : List (List UInt8)} {s : Store}

/-- The inodes of the image. -/
def image (args : List (List UInt8)) (i : Inum) : Inode :=
  if i = ROOTINO then ⟨.dir, 0, 0, 1, rootEnts args⟩
  else if 2 ≤ i.val ∧ i.val < args.length + 2 then ⟨.file, 0, 0, 1, []⟩
  else Inode.zero

theorem mkfs_some (h : mkfs args = some s) : args.length + 2 ≤ NINODES ∧ s.node = image args ∧
    (∀ i, s.ref i = 0) ∧ ∀ i, s.valid i = false := by
  unfold mkfs at h
  split at h
  next hc =>
    obtain rfl := Option.some.inj h
    refine ⟨hc.2, ?_, ?_, ?_⟩
    · funext i
      simp [Store.node, image]
    · intro i
      simp [Store.ref]
    · intro i
      simp [Store.valid]
  · cases h

section Image

variable (hlen : args.length + 2 ≤ NINODES) {i : Inum}

theorem image_root : image args ROOTINO = ⟨.dir, 0, 0, 1, rootEnts args⟩ := if_pos rfl

theorem image_dir : (image args i).type = .dir ↔ i = ROOTINO := by
  unfold image
  split
  · simp [*]
  · split <;> simp [*, Inode.zero]

theorem image_other (hi : i ≠ ROOTINO) : (image args i).ents = [] := by
  unfold image
  rw [if_neg hi]
  split <;> rfl

theorem image_free : (image args i).type = .free ↔ i ≠ ROOTINO ∧ ¬ (2 ≤ i.val ∧ i.val < args.length + 2) := by
  unfold image
  split
  · simp [*]
  · split <;> simp [*, Inode.zero]

theorem bag_holes (l : List Dirent) (k : Nat) : bag (l ++ List.replicate k ⟨0, []⟩) = bag l := by
  simp [bag]

/-- The files, once each. -/
theorem image_kids : (image args ROOTINO).kids =
    bag (args.zipIdx.map fun (arg, k) => ⟨Fin.ofNat NINODES (k + 2), fileName arg⟩) := by
  rw [image_root]
  exact bag_holes _ _

include hlen

theorem image_bag : bag (args.zipIdx.map fun (arg, k) => ⟨Fin.ofNat NINODES (k + 2), fileName arg⟩) =
    ((List.range args.length).map fun k => Fin.ofNat NINODES (k + 2) : List Inum) := by
  have hmap : (args.zipIdx.map fun (arg, k) => (⟨Fin.ofNat NINODES (k + 2), fileName arg⟩ : Dirent)).map
      Dirent.inum = (List.range args.length).map fun k => Fin.ofNat NINODES (k + 2) := by
    rw [List.map_map, List.range_eq_range', ← List.zipIdx_map_snd, List.map_map]
    rfl
  unfold bag
  rw [hmap, List.filter_eq_self.2]
  intro i hi
  obtain ⟨k, hk, rfl⟩ := List.mem_map.1 hi
  rw [List.mem_range] at hk
  simp only [NINODES] at hlen
  simp only [ne_eq, decide_not, Bool.not_eq_true', decide_eq_false_iff_not, Fin.ext_iff, Fin.ofNat]
  simp only [NINODES, Fin.val_zero]
  omega

theorem image_count (i : Inum) : (image args ROOTINO).kids.count i =
    if 2 ≤ i.val ∧ i.val < args.length + 2 then 1 else 0 := by
  have hval : ∀ k, k < args.length → (Fin.ofNat NINODES (k + 2)).val = k + 2 := by
    intro k hk
    exact Nat.mod_eq_of_lt (by omega)
  have hnd : ((List.range args.length).map fun k => Fin.ofNat NINODES (k + 2)).Nodup := by
    apply List.Nodup.map_on _ List.nodup_range
    intro x hx y hy he
    have hx := hval x (List.mem_range.1 hx)
    have hy := hval y (List.mem_range.1 hy)
    rw [he] at hx
    omega
  have hmem : i ∈ (List.range args.length).map (fun k => Fin.ofNat NINODES (k + 2)) ↔
      2 ≤ i.val ∧ i.val < args.length + 2 := by
    simp only [List.mem_map, List.mem_range]
    constructor
    · rintro ⟨k, hk, rfl⟩
      rw [hval k hk]
      omega
    intro hi
    refine ⟨i.val - 2, by omega, ?_⟩
    rw [Fin.ext_iff, hval _ (by omega)]
    omega
  rw [image_kids, image_bag hlen, Multiset.coe_count]
  split
  next hi =>
    exact List.count_eq_one_of_mem hnd (hmem.2 hi)
  next hi =>
    exact List.count_eq_zero_of_not_mem fun h => hi (hmem.1 h)

theorem image_links (i : Inum) : (view (image args)).links i =
    if 2 ≤ i.val ∧ i.val < args.length + 2 then 1 else 0 := by
  rw [← image_count hlen i]
  have hsum : ∑ d, (image args d).kids.count i = (image args ROOTINO).kids.count i := by
    apply Finset.sum_eq_single ROOTINO
    · intro d _ hd
      have hk : (image args d).kids = 0 := by simp [Inode.kids, image_other hd, bag]
      rw [hk, Multiset.count_zero]
    · intro h
      exact absurd (Finset.mem_univ _) h
  exact hsum

theorem image_mem {d i : Inum} (h : i ∈ (image args d).kids) : d = ROOTINO ∧ 2 ≤ i.val ∧ i.val < args.length + 2 := by
  have hd : d = ROOTINO := by
    by_contra hd
    simp [Inode.kids, image_other hd, bag] at h
  subst hd
  have hc := Multiset.count_pos.2 h
  rw [image_count hlen] at hc
  refine ⟨rfl, ?_⟩
  by_contra hno
  rw [if_neg hno] at hc
  omega

theorem image_mem_ne {d i : Inum} (h : i ∈ (image args d).kids) : i ≠ ROOTINO := by
  rintro rfl
  have := (image_mem hlen h).2.1
  simp at this

theorem image_shape : Shape (image args) := by
  refine ⟨?_, ?_, ?_⟩
  · intro d hd
    rw [image_dir.1 hd, image_root]
    exact ⟨ROOTINO, _, rfl, by decide⟩
  · intro i hi
    exact image_other fun e => hi (image_dir.2 e)
  intro d e he hdir
  -- what the root's entries name is no directory
  have he0 : e.inum ≠ 0 := by
    rw [image_dir.1 hdir]
    decide
  exact absurd (image_dir.1 hdir) (image_mem_ne hlen (mem_bag.2 ⟨he0, e, he, rfl⟩))

theorem image_subdirs (d : Inum) : (view (image args)).subdirs d = 0 := by
  rw [View.subdirs, Multiset.countP_eq_zero]
  intro c hc hdir
  exact image_mem_ne hlen hc (image_dir.1 hdir)

theorem image_tree : Tree (view (image args)) := by
  refine ⟨?_, image_dir.2 rfl, ?_, ?_, ?_, ?_, ?_, ?_, ?_, ?_⟩
  · apply image_free.2
    simp
  · show (image args ROOTINO).up = ROOTINO
    rw [image_root]
    rfl
  · intro i hi
    show (image args i).kids = 0
    simp [Inode.kids, image_other fun e => hi (image_dir.2 e), bag]
  · intro d i hi
    refine ⟨?_, image_mem_ne hlen hi⟩
    intro hf
    exact (image_free.1 hf).2 (image_mem hlen hi).2
  · intro d c hc hdir
    exact absurd (image_dir.1 hdir) (image_mem_ne hlen hc)
  · intro c _
    rw [image_links hlen]
    split <;> omega
  · intro d hd
    have hd : d = ROOTINO := image_dir.1 hd
    subst hd
    rw [image_links hlen, image_subdirs hlen]
    show (image args ROOTINO).nlink = _
    rw [image_root]
    simp
  · intro i hi
    rw [image_links hlen]
    split
    next hfile =>
      have hne : i ≠ ROOTINO := fun e => hi (image_dir.2 e)
      show 1 ≤ (image args i).nlink.toNat
      simp [image, hne, hfile]
    · exact Nat.zero_le _
  · exact ⟨fun _ => 0, fun d c hc hdir => absurd (image_dir.1 hdir) (image_mem_ne hlen hc)⟩

theorem image_sound : Sound (image args) := ⟨image_shape hlen, image_tree hlen⟩

theorem image_exact : Exact (view (image args)) := by
  refine ⟨?_, ?_⟩
  · intro d hd hroot
    exact absurd (image_dir.1 hd) hroot
  intro i hi hf
  rw [image_links hlen]
  show (image args i).nlink.toNat = _
  have hne : i ≠ ROOTINO := fun e => hi (image_dir.2 e)
  have hfile : 2 ≤ i.val ∧ i.val < args.length + 2 := by
    by_contra hno
    exact hf (image_free.2 ⟨hne, hno⟩)
  simp [image, hne, hfile]

theorem image_ups : Ups (view (image args)) none := by
  intro x hx _
  have hx : x = ROOTINO := image_dir.1 hx
  subst hx
  refine ⟨?_, fun h => absurd rfl h⟩
  rw [(image_tree hlen).rootUp]
  exact (image_tree hlen).root

end Image

/-! ## The first process -/

theorem boot_holders (s : Store) (i : Inum) : holders (World.boot s) i = if i = ROOTINO then 1 else 0 := by
  let w : World := ⟨s.setRef ROOTINO 1, Vector.replicate NFILE ⟨0, 0⟩, Vector.replicate NPROC none⟩
  have hw : World.boot s = w.setTask 0 (some ⟨ROOTINO, Vector.replicate NOFILE none⟩) := rfl
  have hz : holders w i = 0 := by
    simp [holders, w, World.task, World.file, Task.holds, File.holds]
  have h := holders_setTask w 0 (some ⟨ROOTINO, Vector.replicate NOFILE none⟩) i
  have hnone : w.task 0 = none := by simp [w, World.task]
  rw [hz, hnone] at h
  rw [hw]
  simpa [Task.holds] using h

theorem boot_live (h : mkfs args = some s) : Live (holders (World.boot s)) 0 0 (World.boot s).fs := by
  obtain ⟨-, hnode, href, hvalid⟩ := mkfs_some h
  refine ⟨?_, ?_, ?_, ?_, ?_⟩
  · intro i
    rw [boot_holders]
    simp [World.boot, Function.update_apply, href]
  · intro i hi
    exact absurd hi (Multiset.notMem_zero i)
  · intro i hf
    have hne : i ≠ ROOTINO := by
      rintro rfl
      rw [World.boot, Store.node_setRef, hnode, image_root] at hf
      cases hf
    exact ⟨by rw [boot_holders, if_neg hne], fun _ => hvalid i⟩
  · intro i hf h0
    -- every inode of the image has a link
    rw [World.boot, Store.node_setRef, hnode] at hf h0
    unfold image at hf h0
    split at h0
    · cases h0
    · split at h0
      · cases h0
      · simp_all [Inode.zero]
  · intro i hi
    rw [boot_holders] at hi
    split at hi
    · exact .inr ‹_›
    · omega

/-- An image with one file, `f`. -/
def oneFile : World := World.boot ((mkfs [[102]]).get (by decide))

theorem oneFile_init : machine.init oneFile := ⟨[[102]], _, (Option.some_get _).symm, rfl⟩

end Xv6.Fs
