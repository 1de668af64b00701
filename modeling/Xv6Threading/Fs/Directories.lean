import Xv6Threading.Fs.Shift

/-!
# The directories form a tree
-/

namespace Xv6.Fs

/-- Of what is reachable from the root: everything is allocated, a directory's first entry is `.`, a directory other
than the root has one entry that names it, its second entry is `..` for the directory that holds that entry, and there
is no cycle. No entry after the first two that names a directory is called `.` or `..`. -/
structure IsTree (n : Inum → Inode) : Prop where
  alloc : ∀ i, Reachable n i → (n i).type ≠ .free
  self : ∀ d, Reachable n d → (n d).type = .dir → (n d).ents[0]? = some ⟨d, dot⟩
  parent : ∀ i, Reachable n i → (n i).type = .dir → i ≠ ROOTINO → ∃ d k, Reachable n d ∧ 2 ≤ k ∧ Names n d k i ∧
    (∀ d' k', 2 ≤ k' → Names n d' k' i → d' = d ∧ k' = k) ∧ (n i).ents[1]? = some ⟨d, dotdot⟩
  acyclic : ∀ i, ¬ Relation.TransGen (fun d c => ∃ k, 2 ≤ k ∧ Names n d k c) i i
  names : ∀ d, ∀ e ∈ (n d).ents.drop 2, (n e.inum).type = .dir → e.name ≠ dot ∧ e.name ≠ dotdot

section Sound

variable {n : Inum → Inode} {i : Inum}

/-- An inode that is in a bag once is named at one place. -/
theorem eq_of_count_le_one : ∀ {l : List Dirent} {k k' : Nat} {e e' : Dirent}, (bag l).count i ≤ 1 → i ≠ 0 →
    l[k]? = some e → e.inum = i → l[k']? = some e' → e'.inum = i → k = k'
  | [], _, _, _, _, _, _, hk, _, _, _ => by simp at hk
  | x :: l, k, k', e, e', hc, h0, hk, he, hk', he' => by
    have hmem : ∀ {j : Nat} {y : Dirent}, l[j]? = some y → y.inum = i → 0 < (bag l).count i := by
      intro j y hj hy
      exact Multiset.count_pos.2 (mem_bag.2 ⟨h0, y, List.mem_of_getElem? hj, hy⟩)
    -- the first entry cannot name it together with a later one
    have hfirst : x.inum = i → ∀ {j : Nat} {y : Dirent}, l[j]? = some y → y.inum = i → False := by
      intro hx j y hj hy
      have := hmem hj hy
      rw [bag_cons, if_neg (by rwa [hx]), hx, Multiset.count_cons_self] at hc
      omega
    have hc' : (bag l).count i ≤ 1 := by
      refine le_trans ?_ hc
      rw [bag_cons]
      split
      · exact Nat.le_refl _
      · exact Multiset.count_le_count_cons _ _ _
    cases k with
    | zero =>
      cases k' with
      | zero => rfl
      | succ k' =>
        obtain rfl : x = e := by simpa using hk
        exact (hfirst he (by simpa using hk') he').elim
    | succ k =>
      cases k' with
      | zero =>
        obtain rfl : x = e' := by simpa using hk'
        exact (hfirst he' (by simpa using hk) he).elim
      | succ k' =>
        rw [List.getElem?_cons_succ] at hk hk'
        rw [eq_of_count_le_one hc' h0 hk he hk' he']

/-- A directory is named at one place. -/
theorem Sound.names_unique (h : Sound n) (hi : (n i).type = .dir) {d d' : Inum} {k k' : Nat} (hk : 2 ≤ k)
    (hn : Names n d k i) (hk' : 2 ≤ k') (hn' : Names n d' k' i) : d' = d ∧ k' = k := by
  have honce := h.tree.once i hi
  have hmem := (names_iff h).1 ⟨k, hk, hn⟩
  have hd : d' = d := Links.eq_of_indeg_le_one honce ((names_iff h).1 ⟨k', hk', hn'⟩) hmem
  subst hd
  obtain ⟨k, rfl⟩ := Nat.exists_eq_add_of_le hk
  obtain ⟨k', rfl⟩ := Nat.exists_eq_add_of_le hk'
  obtain ⟨-, h0, name, he⟩ := hn
  obtain ⟨-, -, name', he'⟩ := hn'
  rw [← List.getElem?_drop] at he he'
  have hc : (bag ((n d').ents.drop 2)).count i ≤ 1 := (Links.count_le_indeg _ _ _).trans honce
  exact ⟨rfl, by rw [eq_of_count_le_one hc h0 he' rfl he rfl]⟩

theorem Sound.isTree (h : Sound n) : IsTree n := by
  refine ⟨fun i hi => hi.alloc h, ?_, ?_, ?_, h.shape.names⟩
  · intro d _ hd
    obtain ⟨p, rest, he, -⟩ := h.shape.dots d hd
    rw [he]
    rfl
  · intro i hi hdir hroot
    cases hi with
    | root => exact absurd rfl hroot
    | @entry d _ k hd hk hn =>
      refine ⟨d, k, hd, hk, hn, fun d' k' hk' hn' => h.names_unique hdir hk hn hk' hn', ?_⟩
      have hup : (n i).up = d := h.tree.up d i ((names_iff h).1 ⟨k, hk, hn⟩) hdir
      obtain ⟨p, rest, he, -⟩ := h.shape.dots i hdir
      rw [Inode.up, he] at hup
      rw [he, ← hup]
      rfl
  · intro i hi
    obtain ⟨r, hr⟩ := h.tree.rank
    apply Links.acyclic (fun d => (view n).type d = .dir)
      (fun d c hc => h.tree.dir_of_mem hc) hr i
    exact Relation.TransGen.mono (fun d c hc => (names_iff h).1 hc) i i hi

end Sound

/-- **The directories form a tree.** -/
theorem directories_tree {w : World} (h : machine.ReachBy NoWrap w) : IsTree w.fs.node :=
  (Good.of_reach h).sound.isTree

/-- `/d/e`, from inside `/d`. -/
theorem directories_tree_nested : ∃ w, machine.ReachBy NoWrap w ∧ IsTree w.fs.node ∧
    Names w.fs.node ROOTINO 3 3 ∧ Names w.fs.node 3 2 4 ∧ (w.fs.node 4).type = .dir := by
  obtain ⟨w, hw, hp⟩ := Machine.exists_reachBy (G := NoWrap) oneFile_init
    [⟨0, .mkdir [47, 100]⟩, ⟨0, .chdir [100]⟩, ⟨0, .mkdir [101]⟩]
    (fun w => (w.fs.node ROOTINO).ents[3]? = some ⟨3, [100]⟩ ∧ (w.fs.node 3).ents[2]? = some ⟨4, [101]⟩ ∧
      (w.fs.node ROOTINO).type = .dir ∧ (w.fs.node 3).type = .dir ∧ (w.fs.node 4).type = .dir) (by decide +kernel)
  obtain ⟨h3, h4, hroot, hd, he⟩ := of_decide_eq_true hp
  exact ⟨w, hw, directories_tree hw, ⟨hroot, by decide, _, h3⟩, ⟨hd, by decide, _, h4⟩, he⟩

/-! ### A link count that wraps around -/

/-- `f` is linked in a directory that has been removed, and the directory is left: its link count is one more. -/
def wasteLink : List Act :=
  [⟨0, .mkdir [47, 100]⟩, ⟨0, .chdir [47, 100]⟩, ⟨0, .unlink [47, 100]⟩, ⟨0, .link [47, 102] [120]⟩,
    ⟨0, .chdir [47]⟩]

theorem wasteLink_isSome : (machine.run (fun _ _ => True) oneFile wasteLink).isSome = true := by decide +kernel

def wasted : World := (machine.run (fun _ _ => True) oneFile wasteLink).get wasteLink_isSome

theorem wasted_reach : machine.Reach wasted :=
  Machine.reachBy_of_run wasteLink (.init oneFile_init) (Option.some_get _).symm

/-- For comparing worlds in one pass. -/
abbrev World.lists (w : World) :=
  (w.fs.inodes.toList, w.fs.refs.toList, w.fs.valids.toList, w.files.toList, w.tasks.toList)

theorem lists_injective : Function.Injective World.lists := by
  rintro ⟨⟨inodes, refs, valids⟩, files, tasks⟩ w h
  simp only [World.lists, Prod.mk.injEq, Vector.toList_inj] at h
  obtain ⟨rfl, rfl, rfl, rfl, rfl⟩ := h
  rfl

set_option synthInstance.maxSize 512 in
theorem wasteLink_wasted : machine.run (Calm 2 2) wasted wasteLink = some (wasted.shift 2 1) := by
  apply Option.map_injective lists_injective
  decide +kernel

/-- After 65535 links the next one makes the count zero, and `sys_link` itself frees the inode: `/f` and `/g` name an
inode that is free. -/
theorem directories_tree_wrap : ∃ w, machine.Reach w ∧ ¬ IsTree w.fs.node ∧
    Names w.fs.node ROOTINO 2 2 ∧ (w.fs.node 2).type = .free := by
  have hw : machine.Reach (wasted.shift 2 (BitVec.ofNat 16 65533)) :=
    rounds wasted_reach wasteLink_wasted (by decide) 65533 (by decide)
  have hlast : ((wasted.shift 2 (BitVec.ofNat 16 65533)).step ⟨0, .link [47, 102] [47, 103]⟩).any (fun w =>
      (w.fs.node ROOTINO).type = .dir ∧ (w.fs.node ROOTINO).ents[2]? = some ⟨2, [102]⟩ ∧
        (w.fs.node 2).type = .free) = true := by
    decide +kernel
  obtain ⟨w, hstep, hp⟩ := (Option.any_eq_true _ _).1 hlast
  obtain ⟨hroot, hent, hfree⟩ := of_decide_eq_true hp
  have hnames : Names w.fs.node ROOTINO 2 2 := ⟨hroot, by decide, _, hent⟩
  refine ⟨w, reach_step hw hstep, ?_, hnames, hfree⟩
  intro htree
  exact htree.alloc 2 (.entry .root (by decide) hnames) hfree

end Xv6.Fs
