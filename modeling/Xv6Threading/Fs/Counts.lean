import Xv6Threading.Fs.Directories

/-!
# Link counts are exact

They are as long as nothing is put into a directory without links. In such a directory `create` and `sys_link` count an
entry that goes with the directory.
-/

namespace Xv6.Fs

/-- The path at which a call may make an entry. -/
def Call.enters : Call → Option (List UInt8)
  | .link _ new => some new
  | c => c.creates.map (·.1)

/-- A name that is new is put into a directory with links. -/
def Rooted (n : Inum → Inode) (cwd : Inum) (c : Call) : Prop :=
  ∀ path ∈ c.enters, ∀ q ∈ resolve n cwd path true, lookup n q.1 q.2 = none → (n q.1).nlink ≠ 0

instance (n : Inum → Inode) (cwd : Inum) (c : Call) : Decidable (Rooted n cwd c) := by unfold Rooted; infer_instance

/-- No link count wraps around, and no directory without links gets an entry. -/
def NoOrphan (w : World) (a : Act) : Prop := NoWrap w a ∧ ∀ t ∈ w.task a.p, Rooted w.fs.node t.cwd a.call

instance (w : World) (a : Act) : Decidable (NoOrphan w a) := by unfold NoOrphan; infer_instance

open Classical in
/-- The entries other than the first, `.`, that name `i` in directories reachable from the root. -/
noncomputable def entryCount (n : Inum → Inode) (i : Inum) : Nat :=
  ∑ d with Reachable n d, (n d).ents.tail.countP fun e => e.inum = i

/-! ## The invariant -/

section Invariant

variable {n m : Inum → Inode} {cwd : Inum} {c : Call}

theorem Call.enters_of_creates {path : List UInt8} {ty : Itype} {major minor : BitVec 16}
    (h : c.creates = some (path, ty, major, minor)) : c.enters = some path := by
  cases c with
  | link => cases h
  | mkdir | mknod | «open» | unlink | chdir | close | dup | fork | exit => simp only [Call.enters, h, Option.map_some]

theorem Main.exact (hm : Main n cwd c m) (hs : Sound n) (h : Exact (view n)) (hg : Linkable n cwd c)
    (hr : Rooted n cwd c) : Exact (view m) := by
  cases hm with
  | none => exact h
  | link hq hp hl hd hfree hnd =>
    rw [hs.view_linked hd hfree]
    exact h.link hs.tree hd hnd (hr _ rfl _ hp hl) (hg _ hq)
  | unlink _ hl hd h1 h2 he =>
    obtain ⟨hi, -, hv⟩ := hs.unlinked_of_lookup hd hl h1 h2 he
    rw [hv]
    exact h.unlink hs.tree hi he
  | create hc hp hl hd hi h0 =>
    rw [hs.view_created hd hi h0]
    exact h.create hs.tree hd hi (hr _ (Call.enters_of_creates hc) _ hp hl)

theorem Frees.exact (hf : Frees n m) (hs : Sound n) (h : Exact (view n)) : Exact (view m) := by
  have hinv : Sound m ∧ Exact (view m) := by
    apply hf.inv (I := fun m => Sound m ∧ Exact (view m)) _ ⟨hs, h⟩
    rintro m i ⟨hs, h⟩ h0
    refine ⟨hs.freed h0, ?_⟩
    rw [view_freed]
    exact h.free hs.tree h0
  exact hinv.2

theorem exact_of_reach {w : World} (h : machine.ReachBy NoOrphan w) : Good w ∧ Exact (view w.fs.node) := by
  apply h.inv (I := fun w => Good w ∧ Exact (view w.fs.node))
  · rintro w ⟨args, s, hs, rfl⟩
    obtain ⟨hlen, hnode, -, -⟩ := mkfs_some hs
    refine ⟨Good.boot hs, ?_⟩
    show Exact (view s.node)
    rw [hnode]
    exact image_exact hlen
  · rintro w a w' ⟨hgood, hex⟩ ⟨hwrap, hrooted⟩ hstep
    obtain ⟨t, ht, -, m, hm, hf⟩ := step_done hgood hwrap hstep
    refine ⟨hgood.step hwrap hstep, ?_⟩
    exact hf.exact (hm.sound hgood.sound (hwrap t ht)) (hm.exact hgood.sound hex (hwrap t ht) (hrooted t ht))

end Invariant

/-! ## Counting -/

section Count

variable {n : Inum → Inode} {d i : Inum} (hs : Sound n)

include hs

/-- The second entry, and those after it. -/
theorem countP_tail (hd : (n d).type = .dir) (hi : i ≠ 0) : (n d).ents.tail.countP (fun e => e.inum = i) =
    (if (n d).up = i then 1 else 0) + (n d).kids.count i := by
  obtain ⟨p, rest, ht⟩ := hs.tail hd
  have hup : (n d).up = p := by
    rw [Inode.up, ht.1]
    rfl
  rw [hup, ht.kids, ht.1, List.tail_cons, List.countP_cons, count_bag hi]
  simp [Nat.add_comm]

variable (hex : Exact (view n))

include hex

/-- What is named is reachable. -/
theorem reachable_of_mem (h : i ∈ (view n).kids d) : Reachable n i := by
  obtain ⟨r, hr⟩ := hs.tree.rank
  apply reachable_of_below hs
  exact Links.below_of_rank (fun d => (view n).type d = .dir) (fun d c hc => hs.tree.dir_of_mem hc) hr
    hex.dead h

/-- And so is what names it. -/
theorem reachable_holder (h : i ∈ (view n).kids d) : Reachable n d := by
  by_cases hroot : d = ROOTINO
  · rw [hroot]
    exact .root
  have hpos : 0 < (view n).links d := by
    rw [Nat.pos_iff_ne_zero]
    intro h0
    rw [hex.dead d (hs.tree.dir_of_mem h) hroot h0] at h
    exact Multiset.notMem_zero _ h
  obtain ⟨e, he⟩ := Links.exists_of_indeg_pos hpos
  exact reachable_of_mem hs hex he

open Classical in
/-- The reachable directories with `i` for their `..`. -/
theorem card_up (i : Inum) :
    (Finset.univ.filter fun d => Reachable n d ∧ (n d).type = .dir ∧ (n d).up = i).card =
    if (n i).type = .dir then (view n).subdirs i + (if i = ROOTINO then 1 else 0) else 0 := by
  -- a reachable directory other than the root is in the one its `..` names
  have hiff : ∀ d, d ≠ ROOTINO → (Reachable n d ∧ (n d).type = .dir ∧ (n d).up = i ↔
      d ∈ ((view n).kids i).filter fun c => (view n).type c = .dir) := by
    intro d hd
    rw [Multiset.mem_filter]
    constructor
    · rintro ⟨hr, hdir, hup⟩
      cases hr with
      | root => exact absurd rfl hd
      | entry _ hk hn =>
        have hmem := (names_iff hs).1 ⟨_, hk, hn⟩
        have hup' : (n d).up = _ := hs.tree.up _ _ hmem hdir
        rw [hup] at hup'
        exact ⟨hup' ▸ hmem, hdir⟩
    · rintro ⟨hmem, hdir⟩
      exact ⟨reachable_of_mem hs hex hmem, hdir, hs.tree.up i d hmem hdir⟩
  have hnot : ROOTINO ∉ ((view n).kids i).filter fun c => (view n).type c = .dir := by
    intro h
    exact (hs.tree.alloc i ROOTINO (Multiset.mem_filter.1 h).1).2 rfl
  by_cases hdir : (n i).type = .dir
  · rw [if_pos hdir, View.subdirs, Links.countP_eq_card hs.tree.once]
    by_cases hroot : i = ROOTINO
    · rw [if_pos hroot]
      have hset : (Finset.univ.filter fun d => Reachable n d ∧ (n d).type = .dir ∧ (n d).up = i) =
          insert ROOTINO (((view n).kids i).filter fun c => (view n).type c = .dir).toFinset := by
        ext d
        rw [Finset.mem_filter, Finset.mem_insert, Multiset.mem_toFinset]
        by_cases hd : d = ROOTINO
        · subst hd
          simp only [Finset.mem_univ, true_and, true_or, iff_true]
          exact ⟨.root, hs.tree.root, hroot ▸ hs.tree.rootUp⟩
        · simp only [Finset.mem_univ, true_and, hd, false_or]
          exact hiff d hd
      rw [hset, Finset.card_insert_of_notMem (by rwa [Multiset.mem_toFinset])]
    rw [if_neg hroot, Nat.add_zero]
    congr 1
    ext d
    rw [Finset.mem_filter, Multiset.mem_toFinset]
    by_cases hd : d = ROOTINO
    · subst hd
      simp only [Finset.mem_univ, true_and, hnot, iff_false]
      rintro ⟨-, -, hup⟩
      exact hroot (hup.symm.trans hs.tree.rootUp)
    · simp only [Finset.mem_univ, true_and]
      exact hiff d hd
  rw [if_neg hdir, Finset.card_eq_zero, Finset.filter_eq_empty_iff]
  rintro d - ⟨hr, hd, hup⟩
  by_cases hroot : d = ROOTINO
  · subst hroot
    have : (n ROOTINO).up = ROOTINO := hs.tree.rootUp
    rw [this] at hup
    exact hdir (hup ▸ hd)
  · have hmem := (hiff d hroot).1 ⟨hr, hd, hup⟩
    exact hdir (hs.tree.dir_of_mem (Multiset.mem_filter.1 hmem).1)

open Classical in
theorem entryCount_eq (hi : Reachable n i) : entryCount n i =
    (view n).links i + if (n i).type = .dir then (view n).subdirs i + (if i = ROOTINO then 1 else 0) else 0 := by
  have h0 : i ≠ 0 := hs.ne_zero (hi.alloc hs)
  have hterm : ∀ d, (n d).ents.tail.countP (fun e => e.inum = i) =
      (if (n d).type = .dir ∧ (n d).up = i then 1 else 0) + ((view n).kids d).count i := by
    intro d
    by_cases hd : (n d).type = .dir
    · simp only [hd, true_and]
      exact countP_tail hs hd h0
    · rw [hs.shape.flat d hd, hs.tree.leaf d hd]
      simp [hd]
  have hlinks : ∑ d with Reachable n d, ((view n).kids d).count i = (view n).links i := by
    unfold View.links Links.indeg
    apply Finset.sum_subset (Finset.subset_univ _)
    intro d _ hd
    apply Multiset.count_eq_zero.2
    intro hmem
    exact hd (Finset.mem_filter.2 ⟨Finset.mem_univ d, reachable_holder hs hex hmem⟩)
  rw [← card_up hs hex i, entryCount, Finset.sum_congr rfl fun d _ => hterm d, Finset.sum_add_distrib, hlinks,
    ← Finset.sum_filter, Finset.filter_filter, ← Finset.card_eq_sum_ones, Nat.add_comm]

/-- An inode with links is reachable. -/
theorem reachable_of_nlink (ha : (n i).type ≠ .free) (hn : (n i).nlink ≠ 0) : Reachable n i := by
  by_cases hroot : i = ROOTINO
  · rw [hroot]
    exact .root
  have hpos : (view n).links i ≠ 0 := by
    by_cases hdir : (n i).type = .dir
    · exact hex.named hs.tree hdir hn hroot
    intro h0
    have hc := hex.count i hdir ha
    rw [h0] at hc
    exact hn (BitVec.eq_of_toNat_eq hc)
  obtain ⟨d, hd⟩ := Links.exists_of_indeg_pos (Nat.pos_of_ne_zero hpos)
  exact reachable_of_mem hs hex hd

theorem nlink_eq_entryCount (ha : (n i).type ≠ .free) (hn : 0 < (n i).nlink.toInt) :
    (n i).nlink.toInt = entryCount n i := by
  have hne : (n i).nlink ≠ 0 := by
    intro h0
    rw [h0] at hn
    exact absurd hn (by decide)
  have hnat : (n i).nlink.toInt = (n i).nlink.toNat := by
    rw [BitVec.toInt_eq_toNat_cond] at hn ⊢
    split at hn
    · rw [if_pos ‹_›]
    · have := (n i).nlink.isLt
      omega
  have hreach := reachable_of_nlink hs hex ha hne
  rw [hnat, entryCount_eq hs hex hreach]
  by_cases hdir : (n i).type = .dir
  · have hexact : (n i).nlink = _ := hs.tree.exact i hdir
    have honce := hs.tree.once i hdir
    have hsub := hs.tree.subdirs_le i
    simp only [NINODES] at hsub
    rw [if_pos hdir, hexact, BitVec.toNat_ofNat, Nat.mod_eq_of_lt, Nat.add_assoc]
    split <;> omega
  · have hc : (n i).nlink.toNat = _ := hex.count i hdir ha
    rw [if_neg hdir, Nat.add_zero, hc]

end Count

/-- **Link counts are exact.** -/
theorem link_counts_exact {w : World} (h : machine.ReachBy NoOrphan w) {i : Inum}
    (ha : (w.fs.node i).type ≠ .free) (hn : 0 < (w.fs.node i).nlink.toInt) :
    Reachable w.fs.node i ∧ (w.fs.node i).nlink.toInt = entryCount w.fs.node i := by
  obtain ⟨hgood, hex⟩ := exact_of_reach h
  refine ⟨?_, nlink_eq_entryCount hgood.sound hex ha hn⟩
  apply reachable_of_nlink hgood.sound hex ha
  intro h0
  rw [h0] at hn
  exact absurd hn (by decide)

/-- `/d` with a directory in it: its own entry, and the `..` of the other. -/
theorem link_counts_exact_nested : ∃ w, machine.ReachBy NoOrphan w ∧ (w.fs.node 3).nlink.toInt = 2 ∧
    Reachable w.fs.node 3 ∧ entryCount w.fs.node 3 = 2 := by
  obtain ⟨w, hw, hp⟩ := Machine.exists_reachBy (G := NoOrphan) oneFile_init
    [⟨0, .mkdir [47, 100]⟩, ⟨0, .chdir [100]⟩, ⟨0, .mkdir [101]⟩, ⟨0, .link [47, 102] [103]⟩]
    (fun w => (w.fs.node 3).type ≠ .free ∧ (w.fs.node 3).nlink.toInt = 2) (by decide +kernel)
  obtain ⟨ha, hn⟩ := of_decide_eq_true hp
  obtain ⟨hr, hcount⟩ := link_counts_exact hw ha (by rw [hn]; decide)
  rw [hn] at hcount
  exact ⟨w, hw, hn, hr, by exact_mod_cast hcount.symm⟩

/-- A file that is created in a removed directory stays, with a link and without an entry, when the directory goes. -/
theorem link_counts_leak : ∃ w, machine.Reach w ∧ (w.fs.node 4).type = .file ∧ (w.fs.node 4).nlink.toInt = 1 ∧
    w.fs.ref 4 = 0 ∧ ¬ Reachable w.fs.node 4 := by
  obtain ⟨w, hw, hp⟩ := Machine.exists_reachBy (G := fun _ _ => True) oneFile_init
    [⟨0, .mkdir [100]⟩, ⟨0, .chdir [100]⟩, ⟨0, .unlink [47, 100]⟩, ⟨0, .open [120] 0x201⟩, ⟨0, .close 0⟩,
      ⟨0, .chdir [47]⟩]
    (fun w => (w.fs.node 4).type = .file ∧ (w.fs.node 4).nlink.toInt = 1 ∧ w.fs.ref 4 = 0 ∧
      ∀ d, ∀ e ∈ (w.fs.node d).ents.drop 2, e.inum ≠ 4) (by decide +kernel)
  obtain ⟨hfile, hn, href, hno⟩ := of_decide_eq_true hp
  refine ⟨w, hw, hfile, hn, href, ?_⟩
  intro hr
  have hroot : ∀ i : Inum, i = 4 → i ≠ ROOTINO := by
    rintro i rfl
    decide
  generalize hi : (4 : Inum) = i at hr
  cases hr with
  | root => exact hroot _ hi.symm rfl
  | @entry d _ k _ hk hnames =>
    obtain ⟨k, rfl⟩ := Nat.exists_eq_add_of_le hk
    obtain ⟨-, -, name, he⟩ := hnames
    rw [← List.getElem?_drop] at he
    exact hno d _ (List.mem_of_getElem? he) hi.symm

end Xv6.Fs
