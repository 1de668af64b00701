import Xv6Threading.Fs.Directories

/-!
# Entries that dangle

A directory that was removed keeps its `..` as long as somebody uses it. Nothing counts that `..`: the directory it
names can be removed and freed too, and then `namex` gets to `ilock` with a free inode.
-/

namespace Xv6.Fs

/-- A directory may be removed from `dp`: no other directory has it for its `..`, and if it stays in use, its own `..` is
the root or a directory that has an entry. -/
def Removable (w : World) (dp i : Inum) : Prop :=
  (∀ x, x ≠ i → (w.fs.node x).type = .dir → (w.fs.node x).up ≠ i) ∧
    (0 < w.fs.ref i → dp = ROOTINO ∨ ∃ d, dp ∈ (w.fs.node d).kids)

instance (w : World) (dp i : Inum) : Decidable (Removable w dp i) := by unfold Removable; infer_instance

/-- An empty directory that `unlink` finds may be removed. -/
def Careful (w : World) (cwd : Inum) : Call → Prop
  | .unlink path => ∀ q ∈ resolve w.fs.node cwd path true, q.2 ≠ dot → q.2 ≠ dotdot →
      ∀ r ∈ lookup w.fs.node q.1 q.2, (w.fs.node r.1).type = .dir → (w.fs.node r.1).kids = 0 → Removable w q.1 r.1
  | _ => True

instance (w : World) (cwd : Inum) : (c : Call) → Decidable (Careful w cwd c)
  | .unlink path => inferInstanceAs (Decidable (∀ q ∈ resolve w.fs.node cwd path true, q.2 ≠ dot → q.2 ≠ dotdot →
      ∀ r ∈ lookup w.fs.node q.1 q.2, (w.fs.node r.1).type = .dir → (w.fs.node r.1).kids = 0 → Removable w q.1 r.1))
  | .mkdir _ | .mknod _ _ _ | .open _ _ | .link _ _ | .chdir _ | .close _ | .dup _ | .fork _ | .exit =>
    inferInstanceAs (Decidable True)

/-- No link count wraps around, and directories are removed with care. -/
def NoStale (w : World) (a : Act) : Prop := NoWrap w a ∧ ∀ t ∈ w.task a.p, Careful w t.cwd a.call

instance (w : World) (a : Act) : Decidable (NoStale w a) := by unfold NoStale; infer_instance

section Frees

variable {n m : Inum → Inode}

theorem Frees.ups (hf : Frees n m) (hs : Sound n) {but : Option Inum} (h : Ups (view n) but) : Ups (view m) but := by
  have hinv : Sound m ∧ Ups (view m) but := by
    apply hf.inv (I := fun m => Sound m ∧ Ups (view m) but) _ ⟨hs, h⟩
    rintro m i ⟨hs, h⟩ h0
    refine ⟨hs.freed h0, ?_⟩
    rw [view_freed]
    exact h.free hs.tree h0
  exact hinv.2

/-- What is not freed is as it was. -/
theorem Frees.same (hf : Frees n m) {i : Inum} (hi : (m i).type ≠ .free) : m i = n i := by
  have hinv : ∀ i, (m i).type ≠ .free → m i = n i := by
    apply hf.inv (I := fun m => ∀ i, (m i).type ≠ .free → m i = n i) _ fun _ _ => rfl
    intro m j ih h0 i hi
    have e : i ≠ j := by
      rintro rfl
      simp [freed] at hi
    rw [freed, Function.update_of_ne e] at hi ⊢
    exact ih i hi
  exact hinv i hi

/-- A directory with an entry is not freed, and keeps the entry. -/
theorem Frees.keeps (hf : Frees n m) (hs : Sound n) {d : Inum} (hd : (n d).type = .dir)
    (hl : d = ROOTINO ∨ 0 < (view n).links d) : (m d).type = .dir ∧ (d = ROOTINO ∨ 0 < (view m).links d) := by
  have hinv : Sound m ∧ (view m).type d = .dir ∧ (d = ROOTINO ∨ 0 < (view m).links d) := by
    apply hf.inv (I := fun m => Sound m ∧ (view m).type d = .dir ∧ (d = ROOTINO ∨ 0 < (view m).links d)) _ ⟨hs, hd, hl⟩
    rintro m i ⟨hs, hd, hl⟩ h0
    have hne : d ≠ i := by
      rintro rfl
      obtain ⟨hz, -, hroot⟩ := hs.tree.of_nlink_zero hd h0
      rcases hl with hl | hl
      · exact hroot hl
      · omega
    refine ⟨hs.freed h0, ?_⟩
    rw [view_freed, hs.tree.links_free_dir h0 hd]
    exact ⟨(Tree.type_free _ i d).2 ⟨hne, hd⟩, hl⟩
  exact hinv.2

end Frees

section Step

variable {w w' : World} {a : Act}

/-- `unlink` has nothing to do with processes and open files. -/
theorem holders_unlink {p : Slot} {path : List UInt8} (hs : w.step ⟨p, .unlink path⟩ = some w') :
    holders w' = holders w := by
  unfold World.step World.call at hs
  cases ht : w.task p with
  | none => simp [ht] at hs
  | some t =>
    cases hu : w.fs.unlink t.cwd path with
    | error e => simp [ht, hu, Except.map] at hs
    | ok r =>
      obtain rfl : w.setFs r.1 = w' := by simpa [ht, hu, Except.map] using hs
      rfl

/-- The removed directory itself: it has gone, or its `..` is still good. -/
theorem upward_removed {n m m' : Inum → Inode} {dp i : Inum} (hs : Sound n) (hsm : Sound m)
    (hi : i ∈ (view n).kids dp) (hk : (n i).kids = 0) (hv : view m = (view n).unlink dp i) (hf : Frees m m')
    (hlive : (m' i).type = .dir → (m' i).nlink = 0 → dp = ROOTINO ∨ ∃ d, dp ∈ (n d).kids)
    (hdir : (m' i).type = .dir) : Upward (view m') i := by
  have hsame : m' i = m i := hf.same (by rw [hdir]; decide)
  have hdir' : (n i).type = .dir := by
    have htype : (view m).type i = (n i).type := by
      rw [hv, Tree.unlink_type]
      rfl
    rw [← htype]
    show (m i).type = .dir
    rw [← hsame]
    exact hdir
  have hne := hs.tree.not_self hi
  have hlinks : ∀ j, (view m).links j + (if j = i then 1 else 0) = (view n).links j := by
    rw [hv]
    exact Tree.unlink_links (view n) hi
  have hup : (m' i).up = dp := by
    have h1 : (view m).up i = (view n).up i := by rw [hv, Tree.unlink_up]
    rw [hsame]
    exact h1.trans (hs.tree.up dp i hi hdir')
  -- it was empty and had one entry, so no links are left
  have hzero : (m' i).nlink = 0 := by
    have hl := hlinks i
    have honce := hs.tree.once i hdir'
    have hkids : (view m).kids i = 0 := by
      rw [hv, Tree.unlink_kids]
      simp only [View.remove, Function.update_of_ne hne]
      exact hk
    have hroot := (hs.tree.alloc dp i hi).2
    have hex := hsm.tree.exact i (show (m i).type = .dir by rw [← hsame]; exact hdir)
    have hsub : (view m).subdirs i = 0 := by simp [View.subdirs, hkids]
    rw [if_pos rfl] at hl
    rw [hsub, if_neg hroot, show (view m).links i = 0 by omega] at hex
    rw [hsame]
    exact hex
  have hdp : (m dp).type = .dir := by
    have htype : (view m).type dp = (n dp).type := by
      rw [hv, Tree.unlink_type]
      rfl
    exact htype.trans (hs.tree.dir_of_mem hi)
  have hnamed : dp = ROOTINO ∨ 0 < (view m).links dp := by
    rcases hlive hdir hzero with hr | ⟨d, hd⟩
    · exact .inl hr
    have hl := hlinks dp
    rw [if_neg hne.symm, Nat.add_zero] at hl
    have hpos : 0 < (view n).links dp := Links.indeg_pos hd
    exact .inr (by omega)
  obtain ⟨htype, hlinked⟩ := hf.keeps hsm hdp hnamed
  show (m' (m' i).up).type = .dir ∧ (i ≠ ROOTINO → _ → (m' i).up = ROOTINO ∨ 0 < (view m').links (m' i).up)
  rw [hup]
  exact ⟨htype, fun _ _ => hlinked⟩

theorem ups_step (h : Good w) (hu : Ups (view w.fs.node) none) (hg : NoStale w a) (hs : w.step a = some w') :
    Ups (view w'.fs.node) none := by
  obtain ⟨t, ht, hl, m, hm, hf⟩ := step_done h hg.1 hs
  have hsm := hm.sound h.sound (hg.1 t ht)
  have hcare := hg.2 t ht
  obtain ⟨p, c⟩ := a
  dsimp only at hm hcare
  cases hm with
  | none => exact hf.ups hsm hu
  | link hq hp hlook hd hfree hnd =>
    apply hf.ups hsm
    rw [h.sound.view_linked hd hfree]
    exact hu.link hnd
  | create hc hp hlook hd hi h0 =>
    apply hf.ups hsm
    rw [h.sound.view_created hd hi h0]
    exact hu.create hd hi
  | @unlink path dp i name off hp hlook hd h1 h2 he =>
    obtain ⟨hi, -, hv⟩ := h.sound.unlinked_of_lookup hd hlook h1 h2 he
    have hremovable : (w.fs.node i).type = .dir → Removable w dp i := fun hdir =>
      hcare _ hp h1 h2 _ hlook hdir (he hdir)
    have hups : Ups (view w'.fs.node) (some i) := by
      apply hf.ups hsm
      rw [hv]
      exact hu.unlink hi fun hdir => (hremovable hdir).1
    intro x hx _
    by_cases e : x = i
    · subst e
      have hdir : (w.fs.node x).type = .dir := by
        have hx' := hx
        rw [show (view w'.fs.node).type x = (w'.fs.node x).type from rfl,
          hf.same (by rw [show (w'.fs.node x).type = .dir from hx]; decide)] at hx'
        have htype : (view (unlinked w.fs.node dp x off)).type x = (w.fs.node x).type := by
          rw [hv, Tree.unlink_type]
          rfl
        exact htype.symm.trans hx'
      apply upward_removed h.sound hsm hi (he hdir) hv hf _ hx
      intro hx h0
      apply (hremovable hdir).2
      have hpos := (hl.dead x (by rw [hx]; decide) h0).1
      rw [hl.ref x, holders_unlink hs] at hpos
      rw [h.live.ref x]
      exact hpos
    · exact hups x hx fun he => e (Option.some.inj he).symm

end Step

theorem ups_of_reach {w : World} (h : machine.ReachBy NoStale w) : Good w ∧ Ups (view w.fs.node) none := by
  apply h.inv (I := fun w => Good w ∧ Ups (view w.fs.node) none)
  · rintro w ⟨args, s, hs, rfl⟩
    obtain ⟨hlen, hnode, -, -⟩ := mkfs_some hs
    refine ⟨Good.boot hs, ?_⟩
    show Ups (view s.node) none
    rw [hnode]
    exact image_ups hlen
  · rintro w a w' ⟨hgood, hu⟩ hg hstep
    exact ⟨hgood.step hg.1 hstep, ups_step hgood hu hg hstep⟩

/-- Where every `..` names a directory, no entry dangles. -/
theorem Sound.not_dangles {n : Inum → Inode} (hs : Sound n) (hu : Ups (view n) none) : ¬ Dangles n := by
  rintro ⟨d, hd, e, he, h0, hf⟩
  obtain ⟨p, rest, ht⟩ := hs.tail hd
  rw [ht.1] at he
  rcases List.mem_cons.1 he with rfl | he
  · rw [hd] at hf
    cases hf
  rcases List.mem_cons.1 he with rfl | he
  · have hup := (hu d hd (by simp)).1
    have hp : (view n).up d = p := by
      show (n d).up = p
      rw [Inode.up, ht.1]
      rfl
    rw [hp] at hup
    rw [show (n p).type = .dir from hup] at hf
    cases hf
  · refine (hs.tree.alloc d e.inum ?_).1 hf
    show e.inum ∈ (n d).kids
    rw [ht.kids]
    exact mem_bag.2 ⟨h0, e, he, rfl⟩

/-- **No entry dangles**, and no call comes to `ilock: no type`. -/
theorem no_entry_dangles {w : World} (h : machine.ReachBy NoStale w) :
    (∀ d, (w.fs.node d).type = .dir → ∀ e ∈ (w.fs.node d).ents, e.inum ≠ 0 → (w.fs.node e.inum).type ≠ .free) ∧
      ∀ a, NoWrap w a → w.call a ≠ .error .ilockNoType := by
  obtain ⟨hgood, hu⟩ := ups_of_reach h
  have hno := hgood.sound.not_dangles hu
  refine ⟨?_, ?_⟩
  · intro d hd e he h0 hf
    exact hno ⟨d, hd, e, he, h0, hf⟩
  · intro a ha he
    exact hno ((call_spec hgood.live hgood.sound ha).error _ he rfl)

/-- From a removed directory, whose parent is still there, `..` leads back. -/
theorem no_entry_dangles_back : ∃ w, machine.ReachBy NoStale w ∧ (w.fs.node 4).nlink = 0 ∧
    (w.fs.node 4).ents[1]? = some ⟨3, dotdot⟩ ∧ (w.fs.node 3).type ≠ .free ∧
    w.call ⟨0, .chdir dotdot⟩ ≠ .error .ilockNoType := by
  obtain ⟨w, hw, hp⟩ := Machine.exists_reachBy (G := NoStale) oneFile_init
    [⟨0, .mkdir [97]⟩, ⟨0, .mkdir [97, 47, 98]⟩, ⟨0, .chdir [97, 47, 98]⟩, ⟨0, .unlink [47, 97, 47, 98]⟩]
    (fun w => (w.fs.node 4).nlink = 0 ∧ (w.fs.node 4).type = .dir ∧ (w.fs.node 4).ents[1]? = some ⟨3, dotdot⟩ ∧
      NoWrap w ⟨0, .chdir dotdot⟩) (by decide +kernel)
  obtain ⟨hn, hd, he, hnowrap⟩ := of_decide_eq_true hp
  obtain ⟨hall, hcall⟩ := no_entry_dangles hw
  exact ⟨w, hw, hn, he, hall 4 hd _ (List.mem_of_getElem? he) (by decide), hcall _ hnowrap⟩

/-- Then the parent is removed as well: the `..` of the working directory names a free inode, and `chdir` of it
panics. -/
theorem dotdot_dangles : ∃ w, machine.Reach w ∧ (w.fs.node 4).type = .dir ∧
    (w.fs.node 4).ents[1]? = some ⟨3, dotdot⟩ ∧ (w.fs.node 3).type = .free ∧
    w.call ⟨0, .chdir dotdot⟩ = .error .ilockNoType := by
  obtain ⟨w, hw, hp⟩ := Machine.exists_reachBy (G := fun _ _ => True) oneFile_init
    [⟨0, .mkdir [97]⟩, ⟨0, .mkdir [97, 47, 98]⟩, ⟨0, .chdir [97, 47, 98]⟩, ⟨0, .unlink [47, 97, 47, 98]⟩,
      ⟨0, .unlink [47, 97]⟩]
    (fun w => (w.fs.node 4).type = .dir ∧ (w.fs.node 4).ents[1]? = some ⟨3, dotdot⟩ ∧ (w.fs.node 3).type = .free ∧
      w.call ⟨0, .chdir dotdot⟩ = .error .ilockNoType) (by decide +kernel)
  exact ⟨w, hw, of_decide_eq_true hp⟩

end Xv6.Fs
